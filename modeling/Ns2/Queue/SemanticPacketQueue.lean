import Mathlib.Data.Int.Basic
import Ns2.Lib.Machine
import Ns2.Lib.TailQueue

/-! `SemanticPacketQueue`: a packet queue that can filter the acknowledgements in it. Packets are
named by their addresses. An `int` counter is an integer. -/

namespace Ns2

/-- What the queue reads of a packet; `isAck` is set when the type is `PT_ACK`. -/
structure SemanticPacketQueue.Header where
  isAck : Bool
  size : ℤ
  saddr : ℤ
  sport : ℤ
  daddr : ℤ
  dport : ℤ
  seqno : ℤ
  fs : Bool
  deriving DecidableEq

/-- The packets in memory and `head_`, `tail_`, `next_`. A packet that was freed has no headers:
reading them is an abort. -/
structure PacketQueue where
  chain : TailQueue ℕ
  packets : ℕ → Option SemanticPacketQueue.Header
  len : ℤ
  bytes : ℤ

structure SemanticPacketQueue extends PacketQueue where
  ackCount : ℤ
  dataCount : ℤ
  markedCount : ℤ
  unmarkedCount : ℤ

/-- The variables bound to Tcl. With `reconsAcks_` an acknowledgement goes to another object and
does not come to the queue. -/
structure SemanticPacketQueue.Config where
  acksfirst : Bool
  filteracks : Bool
  replaceHead : Bool

namespace PacketQueue

def enque (p : ℕ) (q : PacketQueue) : Option PacketQueue :=
  (q.packets p).map fun h =>
    { q with chain := q.chain.push p, len := q.len + 1, bytes := q.bytes + h.size }

def deque (q : PacketQueue) : Option (PacketQueue × Option ℕ) :=
  match q.chain.head with
  | none => some (q, none)
  | some p => (q.packets p).map fun h =>
    ({ q with chain := q.chain.pop p, len := q.len - 1, bytes := q.bytes - h.size }, some p)

/-- The packet `p`, which is not the head, leaves from behind `pp`. -/
def cut (p pp : ℕ) (q : PacketQueue) : Option PacketQueue :=
  (q.packets p).map fun h =>
    { q with chain := q.chain.unlink p pp, len := q.len - 1, bytes := q.bytes - h.size }

/-- The `remove` that is given the packet before. -/
def removeAfter (pkt prev : Option ℕ) (q : PacketQueue) : Option PacketQueue :=
  match pkt with
  | none => some q
  | some p => if q.chain.head = some p then q.deque.map Prod.fst else prev.bind fun pp => q.cut p pp

end PacketQueue

namespace SemanticPacketQueue

/-- A packet with its address, as an operation brings it. -/
structure Packet where
  addr : ℕ
  hdr : Header
  deriving DecidableEq

inductive Op where
  | enque (pkt : Packet)
  | deque
  | remove (pkt : ℕ)

def new : SemanticPacketQueue := ⟨⟨⟨none, none, fun _ => none⟩, fun _ => none, 0, 0⟩, 0, 0, 0, 0⟩

def compareFlows (ip1 ip2 : Header) : Prop :=
  ip1.saddr = ip2.saddr ∧ ip1.sport = ip2.sport ∧ ip1.daddr = ip2.daddr ∧ ip1.dport = ip2.dport

/-- A queued acknowledgement of the same connection is older. -/
def Older (c : Config) (th tcph : Header) : Prop :=
  compareFlows th tcph ∧ th.isAck ∧
    (th.seqno < tcph.seqno ∨ (c.replaceHead ∧ th.seqno = tcph.seqno))

instance (ip1 ip2 : Header) : Decidable (compareFlows ip1 ip2) :=
  inferInstanceAs (Decidable (_ ∧ _))

instance (c : Config) (th tcph : Header) : Decidable (Older c th tcph) :=
  inferInstanceAs (Decidable (_ ∧ _))

def count (h : Header) (s : SemanticPacketQueue) : SemanticPacketQueue :=
  let s := if h.isAck then { s with ackCount := s.ackCount + 1 }
    else { s with dataCount := s.dataCount + 1 }
  if h.fs then { s with markedCount := s.markedCount + 1 }
  else { s with unmarkedCount := s.unmarkedCount + 1 }

def uncount (h : Header) (s : SemanticPacketQueue) : SemanticPacketQueue :=
  let s := if h.isAck then { s with ackCount := s.ackCount - 1 }
    else { s with dataCount := s.dataCount - 1 }
  if h.fs then { s with markedCount := s.markedCount - 1 }
  else { s with unmarkedCount := s.unmarkedCount - 1 }

/-- The loop of `deque_acksfirst` from `p` on: the first acknowledgement and the packet before. -/
def firstAck (s : SemanticPacketQueue) (p pp : Option ℕ) : Option (Option ℕ × Option ℕ) :=
  match p with
  | none => some (none, pp)
  | some x => do
    let h ← s.packets x
    if h.isAck then some (some x, pp) else s |>.firstAck (s.chain.next x) (some x)
  partial_fixpoint

def dequeAcksfirst (s : SemanticPacketQueue) : Option (PacketQueue × Option ℕ) :=
  if s.ackCount > 0 then
    (s.firstAck s.chain.head none).bind fun (p, pp) =>
      (s.removeAfter p pp).map (·, p)
  else s.toPacketQueue.deque

def deque (c : Config) (s : SemanticPacketQueue) : Option (SemanticPacketQueue × Option ℕ) :=
  (if c.acksfirst then s.dequeAcksfirst else s.toPacketQueue.deque).bind fun (q, pkt) =>
    match pkt with
    | none => some ({ s with toPacketQueue := q }, none)
    | some p => (q.packets p).map fun h => (uncount h { s with toPacketQueue := q }, some p)

/-- The loop of `PacketQueue::remove`, whose `deque` is virtual; `abort` at the end of the list. -/
def removeFrom (c : Config) (target : ℕ) (s : SemanticPacketQueue) (pp p : Option ℕ) :
    Option SemanticPacketQueue :=
  match p with
  | none => none
  | some x =>
    if x = target then
      match pp with
      | none => (s.deque c).map Prod.fst
      | some y => (s.cut x y).map fun q => { s with toPacketQueue := q }
    else s |>.removeFrom c target (some x) (s.chain.next x)
  partial_fixpoint

def remove (c : Config) (pkt : ℕ) (s : SemanticPacketQueue) : Option SemanticPacketQueue :=
  (removeFrom c pkt s none s.chain.head).bind fun s => (s.packets pkt).map fun h => uncount h s

/-- The packet `pkt` is put in before `p`. -/
def relink (pkt p : ℕ) (pp : Option ℕ) (s : SemanticPacketQueue) : SemanticPacketQueue :=
  let next := Function.update s.chain.next pkt (some p)
  let next := match pp with
    | none => next
    | some y => Function.update next y (some pkt)
  { s with chain := { s.chain with next := next }, ackCount := s.ackCount - 1 }

/-- The older acknowledgement `p`, which has left the queue, is freed. -/
def drop (p : ℕ) (q : PacketQueue) (s : SemanticPacketQueue) : SemanticPacketQueue :=
  { s with
    toPacketQueue := { q with packets := Function.update q.packets p none }
    ackCount := s.ackCount - 1 }

/-- The loop of `filterAcks` from `p` on; the headers of `pkt` are read anew each time. A queued
packet is not in the scheduler. -/
def filterFrom (c : Config) (pkt : ℕ) (s : SemanticPacketQueue) (done : Bool)
    (p pp : Option ℕ) : Option SemanticPacketQueue :=
  match p with
  | none => some s
  | some x => do
    let th ← s.packets x
    let tcph ← s.packets pkt
    if Older c th tcph then
      if c.replaceHead ∧ pkt ≠ x ∧ done = false then
        let s ← removeFrom c pkt s none s.chain.head
        s.relink pkt x pp |>.filterFrom c pkt true (some x) (some pkt)
      else if done = true ∨ pkt ≠ x then
        let newP := s.chain.next x
        let q ← s.removeAfter (some x) pp
        s.drop x q |>.filterFrom c pkt done newP pp
      else s |>.filterFrom c pkt done (s.chain.next x) (some x)
    else s |>.filterFrom c pkt done (s.chain.next x) (some x)
  partial_fixpoint

def filterAcks (c : Config) (pkt : ℕ) (s : SemanticPacketQueue) : Option SemanticPacketQueue :=
  filterFrom c pkt s false s.chain.head s.chain.head

/-- The answer is the previous tail. -/
def enque (c : Config) (pkt : ℕ) (s : SemanticPacketQueue) :
    Option (SemanticPacketQueue × Option ℕ) :=
  (s.packets pkt).bind fun h =>
    let pt := s.chain.tail
    (s.toPacketQueue.enque pkt).bind fun q =>
      let s := count h { s with toPacketQueue := q }
      if c.filteracks ∧ h.isAck then (s.filterAcks c pkt).map (·, pt) else some (s, pt)

end SemanticPacketQueue

end Ns2
