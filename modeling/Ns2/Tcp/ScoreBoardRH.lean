import Mathlib.Data.Int.Interval
import Ns2.Tcp.ScoreBoard

/-! `ScoreBoardRH`, the scoreboard of the rate-halving sender: a ring of fixed size. `none` is an
exit, through an assertion or because the ring is too small. -/

namespace Ns2

structure ScoreBoardRHNode where
  seqNo : ℤ
  ackFlag : Bool
  sackFlag : Bool
  retran : Bool
  sndNxt : ℤ
  sackCnt : ℤ
  rhId : ℤ

namespace ScoreBoardRHNode

/-- A packet that nothing is known about. -/
def new (i : ℤ) : ScoreBoardRHNode := ⟨i, false, false, false, 0, 0, 0⟩

def isHole (x : ScoreBoardRHNode) : Bool := !x.ackFlag && !x.sackFlag

end ScoreBoardRHNode

structure ScoreBoardRH where
  first : ℤ
  length : ℤ
  retranOccured : ℤ
  retranSacked : ℤ
  sbn : ℤ → ScoreBoardRHNode

namespace ScoreBoardRH

open ScoreBoardRHNode

/-- `SBSIZE`. -/
def sbsize : ℤ := 1024

/-- `SBNI`. -/
def node (i : ℤ) (s : ScoreBoardRH) : ScoreBoardRHNode := s.sbn (i % sbsize)

def write (i : ℤ) (x : ScoreBoardRHNode) (s : ScoreBoardRH) : ScoreBoardRH :=
  { s with sbn := Function.update s.sbn (i % sbsize) x }

/-- `fresh` is what memory holds before it is written. -/
def init (fresh : ScoreBoardRH) : ScoreBoardRH :=
  { fresh with
    first := 0
    length := 0
    retranOccured := 0 }

/-- The number of the last node in use. -/
def lastSeqNo (s : ScoreBoardRH) : ℤ := (s.sbn ((s.first + s.length + sbsize - 1) % sbsize)).seqNo

/-- The board for the packet behind `last_ack`. -/
def create (lastAck : ℤ) (s : ScoreBoardRH) : Option ScoreBoardRH :=
  let s : ScoreBoardRH := { s.write (lastAck + 1) (new (lastAck + 1)) with
    first := (lastAck + 1) % sbsize
    length := s.length + 1 }
  if s.length ≥ sbsize then none else some s

/-- The loop over the acknowledged packets, with the count of those that were retransmitted. -/
def advance (lastAck rhId : ℤ) : ℕ → ℤ → ScoreBoardRH × ℤ → Option (ScoreBoardRH × ℤ)
  | 0, _, r => some r
  | n + 1, i, r =>
    let s := r.1
    let x := s.node i
    if x.seqNo ≤ lastAck then
      if s.first ≠ i % sbsize ∨ s.length - 1 < 0 then none
      else
        let s : ScoreBoardRH := { s with
          first := (s.first + 1) % sbsize
          length := s.length - 1
          retranSacked := if x.retran then rhId else s.retranSacked }
        let s := s.write i { x with
          ackFlag := true
          sackFlag := true
          retran := false
          sndNxt := if x.retran then 0 else x.sndNxt }
        let r := (s, if x.retran then r.2 + 1 else r.2)
        if s.length = 0 then some r else advance lastAck rhId n (i + 1) r
    else advance lastAck rhId n (i + 1) r

/-- New nodes on the right. -/
def extend : ℕ → ℤ → ScoreBoardRH → Option ScoreBoardRH
  | 0, _, s => some s
  | n + 1, i, s =>
    let s : ScoreBoardRH := { s.write i (new i) with length := s.length + 1 }
    if s.length ≥ sbsize then none else extend n (i + 1) s

def extendTo (sackRight : ℤ) (s : ScoreBoardRH) : Option ScoreBoardRH :=
  if sackRight > s.lastSeqNo then
    extend (sackRight - (s.lastSeqNo + 1)).toNat (s.lastSeqNo + 1) s
  else some s

/-- A loop that changes `n` nodes from `i` on, with a sum over them. -/
def each (f : ScoreBoardRHNode → ScoreBoardRHNode × ℤ) :
    ℕ → ℤ → ScoreBoardRH × ℤ → ScoreBoardRH × ℤ
  | 0, _, r => r
  | n + 1, i, r => each f n (i + 1) (r.1.write i (f (r.1.node i)).1, r.2 + (f (r.1.node i)).2)

def coverNode (sackLeft sackRight : ℤ) (x : ScoreBoardRHNode) : ScoreBoardRHNode × ℤ :=
  if x.seqNo ≥ sackLeft ∧ x.seqNo < sackRight then
    ({ x with
      sackFlag := true
      retran := false
      sndNxt := if x.retran then 0 else x.sndNxt }, if x.retran then 1 else 0)
  else (x, 0)

/-- The loop over the packets in front of the right end of a block. -/
def cover (rhId : ℤ) (block : ℤ × ℤ) (r : ScoreBoardRH × ℤ) : ScoreBoardRH × ℤ :=
  let start := (r.1.node r.1.first).seqNo
  let (s, n) := each (coverNode block.1 block.2) (block.2 - start).toNat start (r.1, 0)
  ({ s with retranSacked := if n ≠ 0 then rhId else s.retranSacked }, r.2 + n)

def updateBlock (rhId : ℤ) (r : ScoreBoardRH × ℤ) (block : ℤ × ℤ) : Option (ScoreBoardRH × ℤ) :=
  (r.1.extendTo block.2).map fun s => cover rhId block (s, r.2)

def countNode (x : ScoreBoardRHNode) : ScoreBoardRHNode × ℤ :=
  if x.isHole then ({ x with sackCnt := x.sackCnt + 1 }, 0) else (x, 0)

/-- Holes up to the highest packet that is SACKed. -/
def countHoles (sackMax : ℤ) (s : ScoreBoardRH) : ScoreBoardRH :=
  if s.length ≠ 0 then
    let start := (s.node s.first).seqNo
    (each countNode (sackMax - start).toNat start (s, 0)).1
  else s

/-- A retransmission is lost again when what was sent after it is SACKed. -/
def lostNode (sackMax : ℤ) (x : ScoreBoardRHNode) : ScoreBoardRHNode × ℤ :=
  if x.retran ∧ x.sndNxt < sackMax then
    ({ x with
      retran := false
      sndNxt := 0
      sackCnt := 1 }, 1)
  else (x, 0)

def checkSndNxt (sackMax : ℤ) (s : ScoreBoardRH) : ScoreBoardRH × ℤ :=
  if s.length ≠ 0 then
    let start := (s.node s.first).seqNo
    each (lostNode sackMax) (sackMax - start).toNat start (s, 0)
  else (s, 0)

/-- With `retran_decr`. -/
def updateScoreBoard (lastAck : ℤ) (blocks : List (ℤ × ℤ)) (rhId : ℤ) (s : ScoreBoardRH) :
    Option (ScoreBoardRH × ℤ) :=
  if blocks = [] ∧ s.length = 0 then some (s, 0)
  else
    (if s.length = 0 then s.create lastAck else some s).bind fun s =>
      let start := (s.sbn s.first).seqNo
      (if start ≤ lastAck then advance lastAck rhId (lastAck + 1 - start).toNat start (s, 0)
      else some (s, 0)).bind fun r =>
        (blocks.foldlM (updateBlock rhId) r).map fun r =>
          let sackMax := blocks.foldl (fun m b => if b.2 > m then b.2 else m) 0
          let (s, lost) := (r.1.countHoles sackMax).checkSndNxt sackMax
          (s, r.2 + lost)

def clearScoreBoard (s : ScoreBoardRH) : ScoreBoardRH := { s with length := 0 }

def getNextRetran (numdupacks : ℤ) (s : ScoreBoardRH) : ℤ :=
  if s.length ≠ 0 then
    ScoreBoard.firstWhere (fun i => (s.node i).isHole && !(s.node i).retran &&
      decide ((s.node i).sackCnt ≥ numdupacks)) s.length.toNat (s.node s.first).seqNo
  else -1

def markRetran (retranSeqno sndNxt rhId : ℤ) (s : ScoreBoardRH) : ScoreBoardRH :=
  { s.write retranSeqno { s.node retranSeqno with
      retran := true
      sndNxt := sndNxt
      rhId := rhId } with retranOccured := rhId }

/-- A hole has to be sent again. -/
def forceNode (numdupacks : ℤ) (x : ScoreBoardRHNode) : ScoreBoardRHNode × ℤ :=
  if x.isHole then
    ({ x with
      retran := false
      sndNxt := 0
      sackCnt := numdupacks }, 0)
  else (x, 0)

/-- The first packet has been SACKed, but is not acknowledged. -/
def renegeNode (numdupacks : ℤ) (x : ScoreBoardRHNode) : ScoreBoardRHNode :=
  if !x.ackFlag && x.sackFlag then
    { x with
      sackFlag := false
      retran := false
      sndNxt := 0
      sackCnt := numdupacks }
  else x

def timeoutScoreBoard (sndNxt numdupacks : ℤ) (s : ScoreBoardRH) : Option ScoreBoardRH :=
  if s.length = 0 then some s
  else
    (s.extendTo sndNxt).map fun s =>
      let start := (s.node s.first).seqNo
      let s := (each (forceNode numdupacks) s.length.toNat start (s, 0)).1
      s.write start (renegeNode numdupacks (s.node start))

end ScoreBoardRH

inductive ScoreBoardRHOp where
  | update (lastAck : ℤ) (blocks : List (ℤ × ℤ)) (rhId : ℤ)
  | markRetran (retranSeqno sndNxt rhId : ℤ)
  | timeout (sndNxt numdupacks : ℤ)
  | clear

/-- The board with what its sender has heard. -/
structure RHSender where
  board : ScoreBoardRH
  lastAck : ℤ
  -- the packets in SACK blocks since the board was last empty
  covered : Finset ℤ
  -- those that were the first of the board at a timeout, and in no block since
  reneged : Finset ℤ
  -- the last acknowledgement came with blocks and went past the end of the board
  overran : Bool

namespace RHSender

open ScoreBoardRH

def init (fresh : ScoreBoardRH) : RHSender := ⟨ScoreBoardRH.init fresh, -1, ∅, ∅, false⟩

/-- The packets of the blocks. -/
noncomputable def packets (blocks : List (ℤ × ℤ)) : Finset ℤ :=
  blocks.foldl (fun S b => S ∪ Finset.Ico b.1 b.2) ∅

/-- No packet of the board is left. -/
def Empties (lastAck : ℤ) (s : ScoreBoardRH) : Prop := s.length = 0 ∨ s.lastSeqNo ≤ lastAck

def Overruns (lastAck : ℤ) (blocks : List (ℤ × ℤ)) (s : ScoreBoardRH) : Prop :=
  s.length ≠ 0 ∧ s.lastSeqNo < lastAck ∧ blocks ≠ []

instance (lastAck : ℤ) (s : ScoreBoardRH) : Decidable (Empties lastAck s) :=
  inferInstanceAs (Decidable (s.length = 0 ∨ s.lastSeqNo ≤ lastAck))

instance (lastAck : ℤ) (blocks : List (ℤ × ℤ)) (s : ScoreBoardRH) :
    Decidable (Overruns lastAck blocks s) :=
  inferInstanceAs (Decidable (s.length ≠ 0 ∧ s.lastSeqNo < lastAck ∧ blocks ≠ []))

/-- What is returned, or 0. -/
noncomputable def machine : Machine RHSender ScoreBoardRHOp ℤ where
  step t
    | .update lastAck blocks rhId =>
      (t.board.updateScoreBoard lastAck blocks rhId).map fun (board, decr) =>
        (⟨board, lastAck,
          (if Empties lastAck t.board then ∅ else t.covered) ∪ packets blocks,
          (if Empties lastAck t.board then ∅ else t.reneged) \ packets blocks,
          decide (Overruns lastAck blocks t.board)⟩, decr)
    | .markRetran retranSeqno sndNxt rhId =>
      some ({ t with board := t.board.markRetran retranSeqno sndNxt rhId }, 0)
    | .timeout sndNxt numdupacks =>
      (t.board.timeoutScoreBoard sndNxt numdupacks).map fun board =>
        ({ t with
          board := board
          reneged :=
            if t.board.length = 0 then t.reneged
            else insert (t.board.node t.board.first).seqNo t.reneged }, 0)
    | .clear => some ({ t with
        board := t.board.clearScoreBoard
        covered := ∅
        reneged := ∅ }, 0)

/-- Acknowledgements do not go back, and blocks are not empty and lie above them. -/
def Sends (t : RHSender) : ScoreBoardRHOp → Prop
  | .update lastAck blocks _ => t.lastAck ≤ lastAck ∧ ∀ b ∈ blocks, lastAck < b.1 ∧ b.1 < b.2
  | .markRetran retranSeqno _ _ => 0 ≤ retranSeqno
  | .timeout _ _ => True
  | .clear => True

instance decidableSends (t : RHSender) : ∀ o, Decidable (Sends t o)
  | .update lastAck blocks _ => inferInstanceAs (Decidable
    (t.lastAck ≤ lastAck ∧ ∀ b ∈ blocks, lastAck < b.1 ∧ b.1 < b.2))
  | .markRetran retranSeqno _ _ => inferInstanceAs (Decidable (0 ≤ retranSeqno))
  | .timeout _ _ => inferInstanceAs (Decidable True)
  | .clear => inferInstanceAs (Decidable True)

end RHSender

end Ns2
