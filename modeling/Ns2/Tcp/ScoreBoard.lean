import Ns2.Lib.Keyed
import Ns2.Lib.Machine

/-! The sender's `ScoreBoard`: a ring of nodes indexed by packet number modulo its size, of
which `length_` from `first_` on are in use. -/

namespace Ns2

structure ScoreBoardNode where
  seqNo : ℤ
  ackFlag : Bool
  sackFlag : Bool
  retran : Bool
  sndNxt : ℤ

/-- A packet that nothing is known about. -/
def ScoreBoardNode.new (i : ℤ) : ScoreBoardNode := ⟨i, false, false, false, 0⟩

structure ScoreBoard where
  first : ℤ
  length : ℤ
  sbsize : ℤ
  changed : ℤ
  sbn : ℤ → ScoreBoardNode

inductive ScoreBoardOp where
  | update (lastAck : ℤ) (blocks : List (ℤ × ℤ))
  | markRetran (retranSeqno : ℤ)
  | clear
  | getNextRetran
  | getNextUnacked (seqno : ℤ)

namespace ScoreBoard

/-- `SBNI`. -/
def node (i : ℤ) (s : ScoreBoard) : ScoreBoardNode := s.sbn (i % s.sbsize)

def write (i : ℤ) (n : ScoreBoardNode) (s : ScoreBoard) : ScoreBoard :=
  { s with sbn := Function.update s.sbn (i % s.sbsize) n }

section

-- what memory holds before it is written
variable (fresh : ℤ → ScoreBoardNode)

def init (sz : ℤ) : ScoreBoard := ⟨0, 0, sz, 0, fresh⟩

/-- The nodes are copied up to one behind the last. -/
def resizeSB (sz : ℤ) (s : ScoreBoard) : ScoreBoard :=
  let start := (s.node s.first).seqNo
  { s with
    sbsize := sz
    sbn := Slots.writes (fun i => i % sz) (fun i => s.node i)
      ((List.range (s.length + 1).toNat).map fun k : ℕ => start + k) fresh }

/-- The ring is doubled until a block fits. The size grows with every turn. -/
def growSB (needed : ℤ) : ℕ → ScoreBoard → Option ScoreBoard
  | 0, _ => none
  | fuel + 1, s =>
    if needed ≥ s.sbsize - 1 then growSB needed fuel (s.resizeSB fresh (s.sbsize * 2)) else some s

/-- The loop over the acknowledged packets, with the count of those that were retransmitted;
`none` is a failed assertion. -/
def advance (lastAck : ℤ) : ℕ → ℤ → ScoreBoard × ℤ → Option (ScoreBoard × ℤ)
  | 0, _, r => some r
  | n + 1, i, r =>
    let s := r.1
    let x := s.node i
    if x.seqNo ≤ lastAck then
      if s.first ≠ i ∨ s.length - 1 < 0 then none
      else
        let s : ScoreBoard := { s with
          first := s.first + 1
          length := s.length - 1
          changed := s.changed + 1 }
        let s := s.write i { x with
          ackFlag := true
          sackFlag := true
          retran := false
          sndNxt := if x.retran then 0 else x.sndNxt }
        let r := (s, if x.retran then r.2 + 1 else r.2)
        if s.length = 0 then some r else advance lastAck n (i + 1) r
    else advance lastAck n (i + 1) r

/-- New nodes on the right; `none` is the exit when the ring is full. -/
def extend : ℕ → ℤ → ScoreBoard → Option ScoreBoard
  | 0, _, s => some s
  | n + 1, i, s =>
    let s : ScoreBoard := { s.write i (ScoreBoardNode.new i) with
      length := s.length + 1
      changed := s.changed + 1 }
    if s.length ≥ s.sbsize then none else extend n (i + 1) s

/-- The loop over the packets in front of the right end of a block. -/
def cover (sackLeft sackRight : ℤ) : ℕ → ℤ → ScoreBoard × ℤ → ScoreBoard × ℤ
  | 0, _, r => r
  | n + 1, i, r =>
    let s := r.1
    let x := s.node i
    if x.seqNo ≥ sackLeft ∧ x.seqNo < sackRight then
      let s : ScoreBoard := { s.write i { x with
          sackFlag := true
          retran := false } with
        changed := if x.sackFlag then s.changed else s.changed + 1 }
      cover sackLeft sackRight n (i + 1) (s, if x.retran then r.2 + 1 else r.2)
    else cover sackLeft sackRight n (i + 1) r

/-- The number of the last node in use. -/
def lastSeqNo (s : ScoreBoard) : ℤ := (s.sbn ((s.first + s.length + s.sbsize - 1) % s.sbsize)).seqNo

def updateBlock (lastAck : ℤ) (r : ScoreBoard × ℤ) (block : ℤ × ℤ) : Option (ScoreBoard × ℤ) :=
  (if block.2 > r.1.lastSeqNo then
    (growSB fresh (block.2 - lastAck) (block.2 - lastAck + 3).toNat r.1).bind fun s =>
      extend (block.2 - (s.lastSeqNo + 1)).toNat (s.lastSeqNo + 1) s
  else some r.1).map fun s =>
    let start := (s.node s.first).seqNo
    cover block.1 block.2 (block.2 - start).toNat start (s, r.2)

/-- `UpdateScoreBoard` with its result, the number of retransmitted packets that left. -/
def updateScoreBoard (lastAck : ℤ) (blocks : List (ℤ × ℤ)) (s : ScoreBoard) :
    Option (ScoreBoard × ℤ) :=
  let s : ScoreBoard := { s with changed := 0 }
  let start := (s.node s.first).seqNo
  (if s.length ≠ 0 ∧ start ≤ lastAck then
    advance lastAck (lastAck + 1 - start).toNat start (s, 0)
  else some (s, 0)).bind fun r =>
    (if r.1.length = 0 ∧ blocks ≠ [] then
      let s : ScoreBoard := { r.1.write (lastAck + 1) (ScoreBoardNode.new (lastAck + 1)) with
        first := lastAck + 1
        length := r.1.length + 1
        changed := r.1.changed + 1 }
      if s.length ≥ s.sbsize then none else some (s, r.2)
    else some r).bind fun r => blocks.foldlM (updateBlock fresh lastAck) r

end

def clearScoreBoard (s : ScoreBoard) : ScoreBoard := { s with length := 0 }

/-- The first of `n` numbers from `i` on that `p` holds for, or -1. -/
def firstWhere (p : ℤ → Bool) : ℕ → ℤ → ℤ
  | 0, _ => -1
  | n + 1, i => if p i then i else firstWhere p n (i + 1)

def getNextRetran (s : ScoreBoard) : ℤ :=
  if s.length ≠ 0 then
    firstWhere (fun i => !(s.node i).ackFlag && !(s.node i).sackFlag && !(s.node i).retran)
      s.length.toNat (s.node s.first).seqNo
  else -1

def getNextUnacked (seqno : ℤ) (s : ScoreBoard) : ℤ :=
  let start := (s.node s.first).seqNo
  if s.length = 0 then -1
  else if seqno < start ∨ seqno ≥ start + s.length then -1
  else firstWhere (fun i => !(s.node i).ackFlag && !(s.node i).sackFlag)
    (start + s.length - seqno).toNat seqno

def markRetran (retranSeqno : ℤ) (s : ScoreBoard) : ScoreBoard :=
  s.write retranSeqno { s.node retranSeqno with retran := true }

/-- What is returned, or 0. -/
def machine (fresh : ℤ → ScoreBoardNode) : Machine ScoreBoard ScoreBoardOp ℤ where
  step s
    | .update lastAck blocks => s.updateScoreBoard fresh lastAck blocks
    | .markRetran retranSeqno => some (s.markRetran retranSeqno, 0)
    | .clear => some (s.clearScoreBoard, 0)
    | .getNextRetran => some (s, s.getNextRetran)
    | .getNextUnacked seqno => some (s, s.getNextUnacked seqno)

end ScoreBoard

end Ns2
