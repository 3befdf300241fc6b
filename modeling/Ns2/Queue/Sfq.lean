import Mathlib.Data.Int.Basic
import Ns2.Lib.Circle
import Ns2.Lib.Machine

/-! `SFQ`: the packets of each pair of addresses are queued in the bucket the pair hashes to, and
the buckets with packets are served in turn. An `int` counter is an integer; addresses and the hash
have 32 bits. -/

namespace Ns2

structure Sfq.Packet where
  uid : ℕ
  saddr : BitVec 32
  daddr : BitVec 32
  deriving DecidableEq

/-- `prev` and `next` are in the circle of the `SFQ`. -/
structure PacketSFQ where
  queue : List Sfq.Packet
  pkts : ℤ

/-- The variables bound to Tcl. -/
structure Sfq.Config where
  maxqueue : ℤ
  buckets : ℤ

/-- Buckets are named by their index in the array `bucket`, which is there once it is `allocated`. -/
structure Sfq where
  allocated : Bool
  bucket : ℤ → PacketSFQ
  circle : Circle ℤ
  active : Option ℤ
  occupied : ℤ
  fairshare : ℤ

inductive SfqOp where
  | enque (pkt : Sfq.Packet)
  | deque

/-- How `clear` ends: the process exits, or so many buckets were checked. -/
inductive SfqClear where
  | exit
  | checked (n : ℤ)

namespace Sfq

/-- Before the first operation. -/
def new : Sfq := ⟨false, fun _ => ⟨[], 0⟩, ⟨fun _ => none, fun _ => none⟩, none, 0, 0⟩

/-- The array with all buckets empty. -/
def fresh (c : Config) : Sfq :=
  ⟨true, fun _ => ⟨[], 0⟩, ⟨fun _ => none, fun _ => none⟩, none, 0, c.maxqueue.tdiv c.buckets⟩

/-- An array of negative length and the division by zero are aborts. -/
def initsfq (c : Config) : Option Sfq := if 0 < c.buckets then some (fresh c) else none

/-- What both operations begin with. -/
def ready (c : Config) (s : Sfq) : Option Sfq := if s.allocated then some s else initsfq c

def modify (f : ℤ) (g : PacketSFQ → PacketSFQ) (s : Sfq) : Sfq :=
  { s with bucket := Function.update s.bucket f (g (s.bucket f)) }

/-- The hash before the modulus. -/
def scramble (pkt : Packet) : BitVec 32 :=
  let k := pkt.saddr + pkt.daddr
  k + k.sshiftRight 8 + ~~~k.sshiftRight 4

def hash (pkt : Packet) : ℤ := (scramble pkt).toInt.tmod (2 <<< 19 - 1)

/-- The bucket of a packet. -/
def which (c : Config) (pkt : Packet) : ℤ := (hash pkt).tmod c.buckets

def activate (f : ℤ) (s : Sfq) : Option Sfq :=
  match s.active with
  | some h => (s.circle.insert f h).map fun k => { s with circle := k, active := some h }
  | none => some { s with circle := s.circle.alone f, active := some f }

/-- Only the active bucket leaves the circle. -/
def idle (f : ℤ) (s : Sfq) : Option Sfq :=
  if s.active = some f then
    if s.circle.next f = some f then some { s with active := none }
    else (s.circle.remove f).map fun k => { s with circle := k, active := k.next f }
  else some s

/-- The packet is dropped. -/
def Refuses (c : Config) (f : ℤ) (s : Sfq) : Prop :=
  let used := (s.bucket f).pkts
  let left := c.maxqueue - s.occupied
  used ≥ left / 2 ∨ (left < c.buckets ∧ used > s.fairshare) ∨ left ≤ 0

instance (c : Config) (f : ℤ) (s : Sfq) : Decidable (s.Refuses c f) :=
  inferInstanceAs (Decidable (_ ∨ _))

/-- A packet is queued. -/
def put (pkt : Packet) (f : ℤ) (s : Sfq) : Option Sfq :=
  let s := { s with occupied := s.occupied + 1 }.modify f fun q =>
    ⟨q.queue ++ [pkt], q.pkts + 1⟩
  if (s.bucket f).pkts = 1 then s.activate f else some s

/-- The answer is the packet that is dropped; a bucket outside the array is an abort. -/
def enque (c : Config) (pkt : Packet) (s : Sfq) : Option (Sfq × Option Packet) :=
  (s.ready c).bind fun s =>
    let f := which c pkt
    if 0 ≤ f ∧ f < c.buckets then
      if s.Refuses c f then some (s, some pkt) else (s.put pkt f).map (·, none)
    else none

/-- The active bucket sends its first packet. -/
def serve (f : ℤ) (s : Sfq) : Option (Sfq × Option Packet) :=
  let pkt := (s.bucket f).queue.head?
  let s := { s with occupied := s.occupied - 1 }.modify f fun q => ⟨q.queue.tail, q.pkts - 1⟩
  (if (s.bucket f).pkts = 0 then s.idle f else some { s with active := s.circle.next f }).map (·, pkt)

def deque (c : Config) (s : Sfq) : Option (Sfq × Option Packet) :=
  (s.ready c).bind fun s =>
    match s.active with
    | none => some (s, none)
    | some f => s.serve f

/-- The loop of `clear` from the bucket `q` on; `i` stays as it is. A bucket outside the array is
an abort. -/
def clearFrom (c : Config) (s : Sfq) (i q : ℤ) : Option SfqClear :=
  if i ≠ 0 then
    if 0 ≤ q ∧ q < c.buckets then
      if (s.bucket q).pkts ≠ 0 then some .exit else clearFrom c s i (q + 1)
    else none
  else some (.checked q)
  termination_by (c.buckets - q).toNat

/-- What `buckets` calls before the number is set. -/
def clear (c : Config) (s : Sfq) : Option SfqClear :=
  if s.allocated then clearFrom c s c.buckets 0 else some (.checked 0)

/-- The answers are the packet dropped and the packet dequeued. -/
def machine (c : Config) : Machine Sfq SfqOp (Option Packet) where
  step s
    | .enque pkt => s.enque c pkt
    | .deque => s.deque c

end Sfq

end Ns2
