import Mathlib.Algebra.Ring.Nat
import Mathlib.Data.List.DropRight

/-! `ScoreBoard1`, the scoreboard of TCP-Linux: a queue of nodes, each a range of packets with one
flag. `none` is an exit through an assertion or the use of a node that has been deleted. -/

namespace Ns2

/-- `SKB_FLAG_INFLIGHT` to `SKB_FLAG_RETRANSMITTED`. -/
inductive SkbFlag where
  | inflight
  | sacked
  | lost
  | retransmitted
deriving DecidableEq, Repr

/-- `nxt_` is the last packet of the range, or `snd_nxt` when the packet `seq_` was sent again. -/
structure ScoreBoardNode1 where
  flag : SkbFlag
  seq : ℤ
  nxt : ℤ
  -- set by `MarkRetran` only
  retran : ℤ
deriving DecidableEq, Repr

namespace ScoreBoardNode1

def new (start stop : ℤ) (flag : SkbFlag) : ScoreBoardNode1 := ⟨flag, start, stop, 0⟩

def getEnd (n : ScoreBoardNode1) : ℤ := if n.flag = .retransmitted then n.seq else n.nxt

def getLength (n : ScoreBoardNode1) : ℤ :=
  if n.flag = .retransmitted then 1 else n.nxt + 1 - n.seq

def setFlag (flag : SkbFlag) (n : ScoreBoardNode1) : ScoreBoardNode1 :=
  { n with
    nxt := if n.flag = .retransmitted then n.seq else n.nxt
    flag := flag }

def inside (seq : ℤ) (n : ScoreBoardNode1) : Bool :=
  if n.flag = .retransmitted then decide (seq = n.seq) else decide (n.seq ≤ seq ∧ seq ≤ n.nxt)

def shouldClean (ackseq : ℤ) (n : ScoreBoardNode1) : ℤ :=
  if ackseq < n.seq then 0
  else if n.flag = .retransmitted ∨ ackseq ≥ n.nxt then -1
  else ackseq + 1 - n.seq

/-- Whether the next node can be merged to this one. -/
def mergable (n next : ScoreBoardNode1) : Bool :=
  decide (next.flag ≠ .retransmitted ∧ next.flag = n.flag)

def merge (n next : ScoreBoardNode1) : ScoreBoardNode1 := { n with nxt := next.nxt }

/-- The node before `seq` and the new one from `seq` on. -/
def split (seq : ℤ) (n : ScoreBoardNode1) : ScoreBoardNode1 × ScoreBoardNode1 :=
  ({ n with nxt := seq - 1 }, new seq n.nxt n.flag)

/-- The first packet becomes a node of its own. -/
def markRetran (sndNxt retransId : ℤ) (n : ScoreBoardNode1) : List ScoreBoardNode1 :=
  ⟨.retransmitted, n.seq, sndNxt, retransId⟩ ::
    if n.nxt > n.seq then [(n.split (n.seq + 1)).2] else []

end ScoreBoardNode1

/-- The bits of the `flag` that `UpdateScoreBoard` returns. -/
structure AckFlags where
  unsureTstamp : Bool
  dataSacked : Bool
  dataLost : Bool
deriving DecidableEq, Repr

/-- The queue from `head_` on, with the position of `nxt_to_retrx_` in it. -/
structure ScoreBoard1 where
  nodes : List ScoreBoardNode1
  nxtToRetrx : Option ℕ
  ackedRtxId : ℤ
  rtxId : ℤ
  fack : ℤ
  fackOut : ℤ
  sackOut : ℤ
  lastRtxSeq : ℤ
deriving DecidableEq, Repr

namespace ScoreBoard1

open ScoreBoardNode1

def init : ScoreBoard1 := ⟨[], none, -1, 0, 0, 0, 0, -1⟩

def clearScoreBoard (s : ScoreBoard1) : ScoreBoard1 :=
  { s with
    rtxId := 0
    ackedRtxId := -1
    fackOut := 0
    sackOut := 0
    fack := 0
    nxtToRetrx := none
    nodes := [] }

/-- The counters without `pktNum` packets that are acknowledged. -/
def uncount (flag : SkbFlag) (pktNum : ℤ) (s : ScoreBoard1) : Option ScoreBoard1 :=
  match flag with
  | .sacked => if s.sackOut - pktNum ≥ 0 then some { s with sackOut := s.sackOut - pktNum } else none
  | .lost => if s.fackOut - pktNum ≥ 0 then some { s with fackOut := s.fackOut - pktNum } else none
  | _ => some s

/-- `head_` is deleted. -/
def popHead (rest : List ScoreBoardNode1) (s : ScoreBoard1) : ScoreBoard1 :=
  { s with
    nodes := rest
    nxtToRetrx :=
      match s.nxtToRetrx with
      | some 0 => if rest = [] then none else some 0
      | some (k + 1) => some k
      | none => none }

/-- The loop of `CleanRtxQueue`, with `flag` and `changed_acked_rtx`. -/
def cleanFrom (lastAck : ℤ) : List ScoreBoardNode1 → ScoreBoard1 → AckFlags → Bool →
    Option (ScoreBoard1 × AckFlags × Bool)
  | [], s, flag, changed => some ({ s with nodes := [] }, flag, changed)
  | n :: rest, s, flag, changed =>
    let cmp := n.shouldClean lastAck
    if cmp = 0 then some ({ s with nodes := n :: rest }, flag, changed)
    else if cmp < 0 then
      (s.uncount n.flag n.getLength).bind fun s =>
        if n.flag = .retransmitted then
          let newer := decide (n.retran > s.ackedRtxId)
          let s' : ScoreBoard1 := { s with
            ackedRtxId := if newer then n.retran else s.ackedRtxId }
          cleanFrom lastAck rest (s'.popHead rest) { flag with unsureTstamp := true }
            (changed || newer)
        else cleanFrom lastAck rest (s.popHead rest) flag changed
    else
      (s.uncount n.flag cmp).map fun s =>
        ({ s with nodes := { n with seq := lastAck + 1 } :: rest }, flag, changed)

def cleanRtxQueue (lastAck : ℤ) (s : ScoreBoard1) : Option (ScoreBoard1 × AckFlags × Bool) :=
  cleanFrom lastAck s.nodes s ⟨false, false, false⟩ false

/-- A block moves the ones with a greater left edge up. -/
def insertSack (b : ℤ × ℤ) (sacks : List (ℤ × ℤ)) : List (ℤ × ℤ) :=
  sacks.rdropWhile (fun c => decide (c.1 > b.1)) ++
    b :: sacks.rtakeWhile fun c => decide (c.1 > b.1)

/-- The arrays `left` and `right`: the blocks that are no D-SACK, by their left edges. -/
def sortSacks (lastAck : ℤ) (blocks : List (ℤ × ℤ)) : List (ℤ × ℤ) :=
  blocks.foldl (fun sacks b => if b.1 ≥ lastAck then insertSack b sacks else sacks) []

/-- `fack_` with the last of the blocks. -/
def advanceFack (sacks : List (ℤ × ℤ)) (fack : ℤ) : ℤ :=
  match sacks.getLast? with
  | some b => if fack < b.2 - 1 then b.2 - 1 else fack
  | none => fack

/-- The traversal of `UpdateScoreBoard`. `done` ends with `prev` and is in reverse, `todo` begins
with `now`, and `sacks` with the block at `sack_index`. -/
structure Pass where
  board : ScoreBoard1
  flag : AckFlags
  thorough : Bool
  sacks : List (ℤ × ℤ)
  done : List ScoreBoardNode1
  todo : List ScoreBoardNode1

namespace Pass

/-- Before the traversal; a scoreboard without nodes gets one up to `fack_`. -/
def start (lastAck : ℤ) (sacks : List (ℤ × ℤ)) (flag : AckFlags) (thorough : Bool)
    (s : ScoreBoard1) : Pass where
  board := { s with
    fack := advanceFack sacks s.fack
    nxtToRetrx := none }
  flag := flag
  thorough := thorough || decide (s.fack < advanceFack sacks s.fack)
  sacks := sacks
  done := []
  todo :=
    if s.nodes = [] then [new (lastAck + 1) (advanceFack sacks s.fack) .inflight] else s.nodes

/-- The scoreboard after the traversal. -/
def result (k : Pass) : ScoreBoard1 := { k.board with nodes := k.done.reverse ++ k.todo }

/-- All of `now` is in the block. -/
def setSacked (now : ScoreBoardNode1) (rest : List ScoreBoardNode1) (k : Pass) : Pass :=
  let k := match now.flag with
    | .lost => { k with board := { k.board with fackOut := k.board.fackOut - now.getLength } }
    | .retransmitted => { k with
        board := { k.board with ackedRtxId := now.retran }
        flag := { k.flag with unsureTstamp := true }
        thorough := true }
    | _ => k
  { k with
    board := { k.board with sackOut := k.board.sackOut + now.getLength }
    flag := { k.flag with dataSacked := true }
    todo := now.setFlag .sacked :: rest }

/-- `now` against the first block that ends behind its start. -/
def matchSack (now : ScoreBoardNode1) (rest : List ScoreBoardNode1) (k : Pass) : Pass :=
  let k : Pass := { k with sacks := k.sacks.dropWhile fun b => decide (b.2 ≤ now.seq) }
  match k.sacks with
  | [] => { k with todo := now :: rest }
  | b :: _ =>
    if b.1 ≤ now.getEnd then
      if b.1 > now.seq then { k with todo := (now.split b.1).1 :: (now.split b.1).2 :: rest }
      else if b.2 ≤ now.getEnd then k.setSacked (now.split b.2).1 ((now.split b.2).2 :: rest)
      else k.setSacked now rest
    else { k with todo := now :: rest }

def point (k : Pass) : Pass :=
  if k.board.nxtToRetrx = none then
    { k with board := { k.board with nxtToRetrx := some k.done.length } }
  else k

def setLost (pktNum : ℤ) (now : ScoreBoardNode1) (rest : List ScoreBoardNode1) (k : Pass) : Pass :=
  point { k with
    board := { k.board with fackOut := k.board.fackOut + pktNum }
    flag := { k.flag with dataLost := true }
    todo := now.setFlag .lost :: rest }

/-- Whether `now` is lost when no block reaches it. -/
def checkLoss (dupackThreshold : ℤ) (k : Pass) : Pass :=
  match k.todo with
  | [] => k
  | now :: rest =>
    let lostSeqThreshold := k.board.fack - (dupackThreshold + 1)
    if k.sacks.head?.all fun b => decide (b.1 > now.getEnd) then
      match now.flag with
      | .retransmitted =>
        if now.nxt ≤ k.board.fack ∨ now.retran + dupackThreshold + 1 < k.board.ackedRtxId then
          k.setLost 1 now rest
        else k
      | .inflight =>
        if now.seq ≤ lostSeqThreshold then
          if lostSeqThreshold < now.getEnd then
            let (now, next) := now.split (lostSeqThreshold + 1)
            k.setLost now.getLength now (next :: rest)
          else k.setLost now.getLength now rest
        else k
      | .lost => k.point
      | .sacked => k
    else k

/-- The merge with `prev`, and the new node behind the last one. -/
def link (k : Pass) : Option Pass :=
  match k.todo with
  | [] => some k
  | now :: rest =>
    let merged : Option (ScoreBoardNode1 × List ScoreBoardNode1) :=
      match k.done with
      | [] => some (now, [])
      | prev :: done =>
        if prev.mergable now then
          if k.board.nxtToRetrx = some k.done.length then none else some (prev.merge now, done)
        else some (now, prev :: done)
    merged.map fun (prev, done) => { k with
      done := prev :: done
      todo :=
        if rest = [] ∧ prev.getEnd < k.board.fack then
          [new (prev.getEnd + 1) k.board.fack .inflight]
        else rest }

/-- The body of the loop. -/
def step (dupackThreshold : ℤ) (k : Pass) : Option Pass :=
  match k.todo with
  | [] => some k
  | now :: rest =>
    if now.flag ≠ .sacked then ((k.matchSack now rest).checkLoss dupackThreshold).link
    else k.link

def stops (k : Pass) : Bool := k.todo.isEmpty || k.sacks.isEmpty && !k.thorough

def traverse (dupackThreshold : ℤ) : ℕ → Pass → Option Pass
  | 0, _ => none
  | fuel + 1, k =>
    if k.stops then some k else (k.step dupackThreshold).bind (traverse dupackThreshold fuel)

/-- The packets that are still ahead. -/
def room (k : Pass) : ℕ :=
  (k.todo.map fun n => (max 1 n.getLength).toNat).sum +
    (((k.done.reverse ++ k.todo).getLast?.map fun n => k.board.fack - n.getEnd).getD 0).toNat

end Pass

/-- `none` also stands for a traversal that goes on. -/
def updateScoreBoard (lastAck : ℤ) (blocks : List (ℤ × ℤ)) (dupackThreshold : ℤ) (s : ScoreBoard1) :
    Option (ScoreBoard1 × AckFlags) :=
  (s.cleanRtxQueue lastAck).bind fun (s, flag, changed) =>
    let (s, thorough) := if s.nodes = [] then (s.clearScoreBoard, false) else (s, changed)
    let sacks := sortSacks lastAck blocks
    if thorough = false ∧ sacks = [] then some (s, flag)
    else
      let k := Pass.start lastAck sacks flag thorough s
      (k.traverse dupackThreshold (k.room + 1)).map fun k => (k.result, k.flag)

/-- The loop of `MarkLoss`, with `prev` first in `done`; `lastLost` is about `prev`. -/
def markLossFrom (sndNxt : ℤ) : ℕ → List ScoreBoardNode1 → Bool → List ScoreBoardNode1 →
    ScoreBoard1 → Option ScoreBoard1
  | 0, _, _, _, _ => none
  | _ + 1, done, _, [], s => some { s with nodes := done.reverse }
  | fuel + 1, done, lastLost, now :: rest, s =>
    let more (prev : ScoreBoardNode1) : List ScoreBoardNode1 :=
      if rest = [] ∧ prev.getEnd + 1 < sndNxt then
        [new (prev.getEnd + 1) (sndNxt - 1) .inflight]
      else rest
    if now.flag = .sacked then
      markLossFrom sndNxt fuel (now :: done) false (more now) s
    else
      let s : ScoreBoard1 :=
        if now.flag = .lost then s
        else { s with fackOut := s.fackOut + (now.getEnd - now.seq + 1) }
      let now := now.setFlag .lost
      match lastLost, done with
      | true, prev :: done =>
        if s.nxtToRetrx = some (done.length + 1) then none
        else markLossFrom sndNxt fuel (prev.merge now :: done) true (more (prev.merge now)) s
      | _, done =>
        let s : ScoreBoard1 :=
          if s.nxtToRetrx = none then { s with nxtToRetrx := some done.length } else s
        markLossFrom sndNxt fuel (now :: done) true (more now) s

def markLoss (sndUna sndNxt : ℤ) (s : ScoreBoard1) : Option ScoreBoard1 :=
  let s' : ScoreBoard1 := { s with nxtToRetrx := none }
  (markLossFrom sndNxt (s.nodes.length + 2) [] false s.nodes s').map fun s =>
    let s : ScoreBoard1 :=
      if s.nodes = [] ∧ sndUna < sndNxt then
        { s with
          nodes := [new sndUna (sndNxt - 1) .lost]
          nxtToRetrx := some 0
          fackOut := s.fackOut + (sndNxt - sndUna) }
      else s
    { s with
      rtxId := 0
      ackedRtxId := -1 }

/-- The loop of `GetNextRetran` from position `k` on. -/
def seekLost : List ScoreBoardNode1 → ℕ → Option (ℕ × ScoreBoardNode1)
  | [], _ => none
  | n :: rest, k => if n.flag = .lost then some (k, n) else seekLost rest (k + 1)

def getNextRetran (s : ScoreBoard1) : ℤ × ScoreBoard1 :=
  match s.nxtToRetrx.bind fun k => seekLost (s.nodes.drop k) k with
  | some (k, n) => (n.seq, { s with nxtToRetrx := some k })
  | none => (-1, { s with nxtToRetrx := none })

def markRetran (retranSeqno sndNxt : ℤ) (s : ScoreBoard1) : Option ScoreBoard1 :=
  s.nxtToRetrx.bind fun k =>
    s.nodes[k]?.bind fun n =>
      if n.inside retranSeqno ∧ s.fackOut - 1 ≥ 0 then
        some { s with
          fackOut := s.fackOut - 1
          nodes := s.nodes.take k ++ n.markRetran sndNxt s.rtxId ++ s.nodes.drop (k + 1)
          rtxId := s.rtxId + 1
          lastRtxSeq := retranSeqno }
      else none

end ScoreBoard1

/-- The calls that TCP-Linux makes. -/
inductive BoardCall where
  | update (lastAck : ℤ) (blocks : List (ℤ × ℤ)) (dupackThreshold : ℤ)
  | getNextRetran
  -- `MarkRetran(GetNextRetran(), snd_nxt)`, when there is a packet
  | markRetran (sndNxt : ℤ)
  -- `MarkLoss(highest_ack_ + 1, snd_nxt)`
  | markLoss (sndNxt : ℤ)
  | clear

/-- The scoreboard, and the `highest_ack_` of the agent. -/
structure AckedBoard where
  board : ScoreBoard1
  highestAck : ℤ
deriving DecidableEq

namespace AckedBoard

def init : AckedBoard := ⟨ScoreBoard1.init, -1⟩

def step (s : AckedBoard) : BoardCall → Option AckedBoard
  | .update lastAck blocks dupackThreshold =>
    (s.board.updateScoreBoard lastAck blocks dupackThreshold).map fun r => ⟨r.1, lastAck⟩
  | .getNextRetran => some { s with board := s.board.getNextRetran.2 }
  | .markRetran sndNxt =>
    let (seqno, board) := s.board.getNextRetran
    if seqno = -1 then some { s with board := board }
    else (board.markRetran seqno sndNxt).map fun board => { s with board := board }
  | .markLoss sndNxt =>
    (s.board.markLoss (s.highestAck + 1) sndNxt).map fun board => { s with board := board }
  | .clear => some { s with board := s.board.clearScoreBoard }

def run (s : AckedBoard) (calls : List BoardCall) : Option AckedBoard := calls.foldlM step s

end AckedBoard

end Ns2
