import Ns2.Tcp.Acker

/-! The selective acknowledgements of `Sacker`: a stack of the blocks that were sent before,
and `append_ack`, which writes the blocks of an acknowledgement. -/

namespace Ns2

/-- Entries that are not in use are -1. -/
structure SackStack where
  size : ℕ
  cnt : ℕ
  sfe : ℕ → ℤ × ℤ

namespace SackStack

def init (sz : ℕ) : SackStack := ⟨sz, 0, fun _ => (-1, -1)⟩

def reset (s : SackStack) : SackStack :=
  { s with
    cnt := 0
    sfe := fun i => if i < s.cnt then (-1, -1) else s.sfe i }

/-- `push` and the assignment of its callers to entry 0. -/
def push (b : ℤ × ℤ) (s : SackStack) : SackStack :=
  let cnt := if s.cnt ≥ s.size then s.size - 1 else s.cnt
  { s with
    cnt := cnt + 1
    sfe := fun i => if i = 0 then b else if i ≤ cnt then s.sfe (i - 1) else s.sfe i }

def pop (n : ℕ) (s : SackStack) : SackStack :=
  { s with
    cnt := s.cnt - 1
    sfe := fun i =>
      if i = max n (s.cnt - 1) then (-1, -1)
      else if n ≤ i ∧ i < s.cnt - 1 then s.sfe (i + 1) else s.sfe i }

end SackStack

/-- The blocks of an acknowledgement; that of a duplicate stands first. -/
structure Ack where
  dsack : Option (ℤ × ℤ)
  blocks : List (ℤ × ℤ)

def Ack.saLength (k : Ack) : ℕ := k.dsack.toList.length + k.blocks.length

structure Sacker where
  acker : Acker
  baseNblocks : ℕ
  sf : SackStack

/-- A packet, and whether duplicates are reported when it arrives. -/
structure TcpArrival where
  seq : ℕ
  numBytes : ℤ
  dsacks : Bool

namespace Sacker

/-- `configure` with at least one block. -/
def init (nblocks : ℕ) : Sacker := ⟨Acker.init, nblocks, SackStack.init nblocks⟩

/-- The first hole from the packet on. -/
def rightEdge (a : Acker) (oldSeqno : ℕ) : ℕ :=
  ((List.range' oldSeqno (a.maxseen + 1 - oldSeqno)).find? fun i =>
    a.seen (i &&& a.wndmask) = 0).getD (a.maxseen + 1)

/-- One behind the last hole in front of a place and not below `next_`. -/
def leftEdge (a : Acker) : ℕ → ℤ
  | 0 => -1
  | i + 1 =>
    if i < a.next then -1
    else if a.seen (i &&& a.wndmask) = 0 then i + 1
    else leftEdge a i

/-- The loop over the stack: `room` blocks can still be written, and what the newest block
covers is popped. -/
def oldBlocks (maxseen : ℕ) (recent : ℤ × ℤ) :
    ℕ → ℕ → ℕ → SackStack → Option (List (ℤ × ℤ) × SackStack)
  | 0, _, _, _ => none
  | fuel + 1, room, k, sf =>
    if room = 0 then some ([], sf)
    else if (sf.sfe k).1 < 0 ∨ (sf.sfe k).2 < 0 ∨ (sf.sfe k).2 > maxseen + 1 then some ([], sf)
    else if recent.1 ≤ (sf.sfe k).1 ∧ recent.2 ≥ (sf.sfe k).2 then
      oldBlocks maxseen recent fuel room k (sf.pop k)
    else
      (oldBlocks maxseen recent fuel (room - 1) (k + 1) sf).map fun r => (sf.sfe k :: r.1, r.2)

/-- `Seqno()` is `next_ - 1`. Every turn of the loop over the stack pops an entry or writes
a block. -/
def appendAck (dsacks : Bool) (oldSeqno : ℕ) (s : Sacker) : Option (Sacker × Ack) :=
  let a := s.acker
  if a.next > a.maxseen ∧ s.sf.cnt ≠ 0 then some ({ s with sf := s.sf.reset }, ⟨none, []⟩)
  else if (a.next ≤ a.maxseen ∨ a.isDup = true) ∧ s.baseNblocks > 0 then
    let dsack : Option (ℤ × ℤ) :=
      if dsacks = true ∧ a.isDup = true then some (oldSeqno, oldSeqno + 1) else none
    let sackIndex := dsack.toList.length
    if sackIndex ≥ s.baseNblocks then some (s, ⟨dsack, []⟩)
    else
      let sackRight := rightEdge a oldSeqno
      if oldSeqno < a.next then
        let room := s.baseNblocks - sackIndex
        (oldBlocks a.maxseen (0, sackRight) (s.sf.cnt + room + 1) room 0 s.sf).map fun r =>
          ({ s with sf := r.2 }, ⟨dsack, r.1⟩)
      else
        let room := s.baseNblocks - sackIndex - 1
        let recent : ℤ × ℤ := (leftEdge a sackRight, sackRight)
        (oldBlocks a.maxseen recent (s.sf.cnt + room + 1) room 0 s.sf).map fun r =>
          ({ s with sf := r.2.push recent }, ⟨dsack, recent :: r.1⟩)
  else some (s, ⟨none, []⟩)

/-- A packet arrives and is acknowledged. -/
def recv (s : Sacker) (o : TcpArrival) : Option (Sacker × Ack) :=
  (s.acker.update o.seq o.numBytes).bind fun r =>
    appendAck o.dsacks o.seq { s with acker := r.1 }

def machine : Machine Sacker TcpArrival Ack := ⟨recv⟩

end Sacker

end Ns2
