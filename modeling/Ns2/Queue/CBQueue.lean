import Mathlib.Data.Rat.Defs
import Ns2.Lib.Machine
import Ns2.Lib.PeerRing

/-! `CBQueue` and `WRR_CBQueue`: the classes that share a link, threaded into a circular list for
each priority and a list for each level. Class objects are named by numbers; a `double` is a
rational. -/

namespace Ns2

/-- What does not change in a class: `leaf` when it has a queue, `borrows` when it may borrow and
has a lender. -/
structure CBQClass where
  pri : ℤ
  level : ℤ
  allotment : ℚ
  leaf : Bool
  borrows : Bool

/-- What a `WRR_CBQueue` has besides. -/
structure Wrr where
  alloc : ℤ → ℚ
  M : ℤ → ℚ
  cnt : ℤ → ℕ

/-- `link` is the bandwidth of the link; `peer`, `levelPeer`, `maxrate` and `bytesAlloc` are fields
of the classes. -/
structure CBQueue where
  active : ℤ → Option ℕ
  levels : ℤ → Option ℕ
  maxprio : ℤ
  maxlevel : ℤ
  link : Option ℚ
  peer : ℕ → Option ℕ
  levelPeer : ℕ → Option ℕ
  maxrate : ℕ → ℚ
  bytesAlloc : ℕ → ℤ
  wrr : Option Wrr

/-- The class objects and `maxpkt_`. -/
structure CBQueue.Config where
  cls : ℕ → CBQClass
  maxpkt : ℕ

/-- What the loop of `deque` finds at a class: no demand, or demand and the class may send now or
not. -/
inductive CBQueue.Look where
  | idle
  | permitted
  | denied
  deriving DecidableEq

/-- `look` is what the loop finds at its visits in turn; `pending` is the size of the packet that
the class then gives. -/
inductive CBQueue.Op where
  | insertClass (p : ℕ)
  | link (bandwidth : ℚ)
  | deque (look : ℕ → ℕ → Look) (pending : Option ℤ)

/-- The variables of the loops of `deque`, with the classes visited. -/
structure CBQueue.Scan where
  visited : List ℕ
  first : Option ℕ
  eligible : Option ℕ
  deficit : ℤ
  bytesAlloc : ℕ → ℤ

namespace CBQueue

open PeerRing

/-- `MAXPRIO`. -/
def maxPrio : ℤ := 10

/-- `MAXLEVEL`. -/
def maxLevel : ℤ := 32

def new (wrr : Bool) : CBQueue where
  active _ := none
  levels _ := none
  maxprio := -1
  maxlevel := -1
  link := none
  peer _ := none
  levelPeer _ := none
  maxrate _ := 0
  bytesAlloc _ := 0
  wrr := if wrr then some ⟨fun _ => 0, fun _ => 0, fun _ => 0⟩ else none

/-- The weight of a priority. -/
def weight (c : Config) (w : Wrr) (i : ℤ) : ℚ :=
  if w.alloc i > 0 then w.cnt i * c.maxpkt / w.alloc i else 0

/-- A negative weight is an abort. -/
def setM (c : Config) (maxprio : ℤ) (w : Wrr) : Option Wrr :=
  if (List.range (maxprio + 1).toNat).all fun i => 0 ≤ weight c w i then
    some { w with M := fun i => if 0 ≤ i ∧ i ≤ maxprio then weight c w i else w.M i }
  else none

/-- The virtual `addallot`, which does nothing in a `CBQueue`. -/
def addallot (c : Config) (prio : ℤ) (diff : ℚ) (s : CBQueue) : Option CBQueue :=
  match s.wrr with
  | none => some s
  | some w =>
    (setM c s.maxprio { w with alloc := Function.update w.alloc prio (w.alloc prio + diff) }).map
      fun w => { s with wrr := some w }

/-- A leaf joins the circular list of its priority. -/
def join (p : ℕ) (pri : ℤ) (s : CBQueue) : CBQueue :=
  let s := match s.active pri with
    | some h => { s with
      peer := Function.update (Function.update s.peer p (s.peer h)) h (some p) }
    | none => { s with
      peer := Function.update s.peer p (some p)
      active := Function.update s.active pri (some p) }
  if pri > s.maxprio then { s with maxprio := pri } else s

def joinLevel (p : ℕ) (level : ℤ) (s : CBQueue) : CBQueue :=
  let s := { s with
    levelPeer := Function.update s.levelPeer p (s.levels level)
    levels := Function.update s.levels level (some p) }
  if level > s.maxlevel then { s with maxlevel := level } else s

/-- What `CBQueue::insert_class` does after the circular list. -/
def insertRest (c : Config) (p : ℕ) (s : CBQueue) : Option (CBQueue × ℤ) :=
  let k := c.cls p
  if k.allotment < 0 ∨ k.allotment > 1 then some (s, -1)
  else
    match s.link with
    | none => some (s, -1)
    | some bandwidth =>
      if bandwidth ≤ 0 then some (s, -1)
      else
        let s := { s with
          maxrate := Function.update s.maxrate p (k.allotment * (bandwidth / 8)) }
        (s.addallot c k.pri k.allotment).bind fun s =>
          if k.level ≤ 0 ∨ k.level > maxLevel then some (s, -1)
          else some (s.joinLevel p k.level, 0)

/-- `CBQueue::insert_class`. Only a leaf is scheduled. -/
def insertBase (c : Config) (p : ℕ) (s : CBQueue) : Option (CBQueue × ℤ) :=
  let k := c.cls p
  if k.pri < 0 ∨ k.pri > maxPrio - 1 then some (s, -1)
  else insertRest c p (if k.leaf then s.join p k.pri else s)

/-- The virtual `insert_class`. -/
def insertClass (c : Config) (p : ℕ) (s : CBQueue) : Option (CBQueue × ℤ) :=
  (insertBase c p s).bind fun (s, r) =>
    match s.wrr with
    | none => some (s, r)
    | some w =>
      if r < 0 then some (s, -1)
      else
        let pri := (c.cls p).pri
        (setM c s.maxprio { w with cnt := Function.update w.cnt pri (w.cnt pri + 1) }).map
          fun w => ({ s with wrr := some w }, 0)

/-- A visit of either loop begins: `first` is the first class with demand that may borrow. -/
def Scan.enter (c : Config) (look : Look) (cl : ℕ) (st : Scan) : Scan :=
  { st with
    visited := st.visited ++ [cl]
    first := if look ≠ .idle ∧ st.first = none ∧ (c.cls cl).borrows then some cl else st.first }

/-- One visit of `CBQueue::deque`. -/
def visit (c : Config) (look : ℕ → ℕ → Look) (cl : ℕ) (st : Scan) : Bool × Scan :=
  let v := look st.visited.length cl
  let st := st.enter c v cl
  if v = .permitted then (true, { st with eligible := some cl }) else (false, st)

/-- The bytes of a class, with those that its weight gives it. -/
def Scan.credit (c : Config) (w : Wrr) (cl : ℕ) (st : Scan) : ℤ :=
  let more := (c.cls cl).allotment * w.M (c.cls cl).pri
  if st.deficit < 2 ∧ st.bytesAlloc cl ≤ 0 then st.bytesAlloc cl + more.num.tdiv more.den
  else st.bytesAlloc cl

/-- One visit of `WRR_CBQueue::deque`. -/
def visitWrr (c : Config) (w : Wrr) (look : ℕ → ℕ → Look) (cl : ℕ) (st : Scan) : Bool × Scan :=
  let v := look st.visited.length cl
  let bytes := st.credit c w cl
  let st := st.enter c v cl
  if v = .permitted ∧ (bytes > 0 ∨ st.deficit > 1) then
    (true, { st with eligible := some cl, bytesAlloc := Function.update st.bytesAlloc cl bytes })
  else
    (false, { st with
      deficit := if v = .permitted then 1 else st.deficit
      bytesAlloc := Function.update st.bytesAlloc cl 0 })

/-- The rounds of `WRR_CBQueue::deque` at a priority. A null pointer ends a round, and is an abort
at the start of the next one. -/
def Scan.rounds (c : Config) (w : Wrr) (look : ℕ → ℕ → Look) (peer : ℕ → Option ℕ) (cl : ℕ)
    (st : Scan) : Option (Bool × Scan) := do
  let r ← Tour.around ⟨peer, some cl, visitWrr c w look,
    fun st => if st.deficit = 1 then none else some (false, st)⟩ cl st
  if r.1 then some r
  else if r.2.deficit = 1 then
    ({ r.2 with deficit := 2 } : Scan) |>.rounds c w look peer cl
  else some r
  partial_fixpoint

/-- The loop or loops at a priority that has classes. -/
def scanAt (c : Config) (look : ℕ → ℕ → Look) (s : CBQueue) (cl : ℕ) (st : Scan) :
    Option (Bool × Scan) :=
  match s.wrr with
  | none => Tour.around ⟨s.peer, some cl, visit c look, fun _ => none⟩ cl st
  | some w => Scan.rounds c w look s.peer cl { st with deficit := 0 }

/-- The loop over the priorities, from `prio` on. -/
def scanFrom (c : Config) (look : ℕ → ℕ → Look) (s : CBQueue) (prio : ℤ) (st : Scan) :
    Option (Bool × Scan) :=
  if prio ≤ s.maxprio then
    match s.active prio with
    | none => scanFrom c look s (prio + 1) st
    | some cl => (scanAt c look s cl st).bind fun r =>
      if r.1 then some r else scanFrom c look s (prio + 1) r.2
  else some (false, st)
  termination_by (s.maxprio + 1 - prio).toNat

def scan (c : Config) (look : ℕ → ℕ → Look) (s : CBQueue) : Option (Bool × Scan) :=
  scanFrom c look s 0 ⟨[], none, none, 0, s.bytesAlloc⟩

/-- The class `e` has sent; `found` when the loops found it. -/
def sent (c : Config) (pending : Option ℤ) (found : Bool) (e : ℕ) (s : CBQueue) : CBQueue :=
  let next := s.peer e
  match s.wrr, pending, found with
  | some _, some size, true =>
    let bytes := if s.bytesAlloc e > 0 then s.bytesAlloc e - size else s.bytesAlloc e
    { s with
      active := Function.update s.active (c.cls e).pri (if bytes > 0 then some e else next)
      bytesAlloc := Function.update s.bytesAlloc e bytes }
  | _, _, _ => { s with active := Function.update s.active (c.cls e).pri next }

def deque (c : Config) (look : ℕ → ℕ → Look) (pending : Option ℤ) (s : CBQueue) : Option CBQueue :=
  (s.scan c look).map fun (found, st) =>
    let s := { s with bytesAlloc := st.bytesAlloc }
    match st.eligible.or st.first with
    | none => s
    | some e => s.sent c pending found e

end CBQueue

end Ns2
