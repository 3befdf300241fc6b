import Ns2.Tcp.RttTimer

/-! The sender `TcpAgent` with its retransmission and its delayed-send timer. Times are left out: a
timer that is pending may expire at any moment, and the ticks that the quiescence option reads come
with each event. Of the timeout only the sign matters, which is that of `t_backoff_` as long as
`t_rtxcur_` is not negative. `none` is an abort or an exit. -/

namespace Ns2

/-- What Tcl has set. -/
structure TcpOptions where
  wnd : ℚ
  wndInit : ℚ
  wndInitOption : ℤ
  syn : Bool
  delayGrowth : Bool
  overhead : ℚ
  size : ℤ
  ecn : Bool
  oldEcn : Bool
  eln : Bool
  elnRxmitThresh : ℤ
  bugFix : Bool
  bugfixSs : Bool
  slowStartRestart : Bool
  restartBugfix : Bool
  maxburst : ℤ
  aggressiveMaxburst : Bool
  maxcwnd : ℤ
  maxSsthresh : ℤ
  numdupacks : ℤ
  noFastRetrans : Bool
  singledup : Bool
  decreaseNum : ℚ
  increaseNum : ℚ
  precisionReduce : Bool
  controlIncrease : Bool
  timerfix : Bool
  qOption : Bool
  enblRTTCtr : Bool
  frtoEnabled : Bool
  sfrtoEnabled : Bool
  spuriousResponse : ℤ
  rfc2988 : Bool
  tsOption : Bool
  tsResetRTO : Bool

/-- `CWND_ACTION_DUPACK` to `CWND_ACTION_ECN`. -/
inductive CwndAction where
  | none
  | dupack
  | timeout
  | ecn
deriving DecidableEq, Repr

/-- The variables of the quiescence option. -/
structure Quiescence where
  tLast : ℤ
  tPrev : ℤ
  tStart : ℤ
  rttCount : ℤ
  rttPrev : ℤ
  rttGoodcount : ℤ
  fCounting : Bool
  wUsed : ℤ
  wTimed : ℤ
  fFull : Bool
  backoffs : ℤ
deriving DecidableEq, Repr

/-- What the backoff of the timer depends on; `exited` is the exit of `rtt_timeout`. -/
structure RtxBackoff where
  tBackoff : ℤ
  rttActive : Bool
  rttSeq : ℤ
  ecnBackoff : Bool
  exited : Bool
deriving DecidableEq, Repr

structure TcpAgent where
  tSeqno : ℤ
  dupacks : ℤ
  curseq : ℤ
  highestAck : ℤ
  cwnd : ℚ
  ssthresh : ℤ
  maxseq : ℤ
  lastAck : ℤ
  recover : ℤ
  lastCwndAction : CwndAction
  closed : Bool
  wndInit : ℚ
  wndInitOption : ℤ
  firstDecrease : Bool
  ecnBurst : Bool
  ect : Bool
  elnLastRxmit : ℤ
  frto : ℤ
  pipePrev : ℤ
  prevHighestAck : ℤ
  quiet : Quiescence
  rtt : RtxBackoff
  rtxPending : Bool
  delsndPending : Bool
  -- the packets that `output` has sent, the last one first
  sent : List ℤ
deriving DecidableEq, Repr

/-- An acknowledgement; `stale` is one for an earlier incarnation. -/
structure TcpAck where
  seqno : ℤ
  ecnecho : Bool
  congAction : Bool
  eln : Bool
  noTs : Bool
  stale : Bool

/-- The ticks at the time of an event, and the timeout and the round trip in ticks. -/
structure TcpClock where
  now : ℤ
  rto : ℤ
  rtt : ℤ

/-- What `slowdown` does to `ssthresh_`: `CLOSE_SSTHRESH_HALF`, `THREE_QUARTER_SSTHRESH`. -/
inductive SsthreshCut where
  | none
  | half
  | threeQuarter
deriving DecidableEq

/-- What `slowdown` does to `cwnd_`: `CLOSE_CWND_HALF` to `CLOSE_CWND_HALF_WAY`. -/
inductive CwndCut where
  | none
  | half
  | halfWithMin
  | restart
  | init
  | one
  | halfWay
deriving DecidableEq

/-- `TCP_MAXSEQ`. -/
def tcpMaxseq : ℤ := 1073741824

/-- The conversion of a `double` to `int`. -/
def ratToInt (x : ℚ) : ℤ := if 0 ≤ x then ⌊x⌋ else ⌈x⌉

namespace TcpAgent

variable (o : TcpOptions)

/-- The window size that allows `num` segments past the recovery point. -/
def forceWnd (num : ℤ) (s : TcpAgent) : ℤ := s.recover + num - s.highestAck

def window (s : TcpAgent) : ℤ :=
  if s.frto = 2 then
    if (s.forceWnd 2 : ℚ) < o.wnd then s.forceWnd 2 else ratToInt o.wnd
  else if s.cwnd < o.wnd then ratToInt s.cwnd
  else ratToInt o.wnd

def windowd (s : TcpAgent) : ℚ := if s.cwnd < o.wnd then s.cwnd else o.wnd

/-- The window of half the size. -/
def halfwin (s : TcpAgent) : ℚ :=
  if o.precisionReduce then s.windowd o / 2 else (((s.window o).tdiv 2 : ℤ) : ℚ)

def decreasewin (s : TcpAgent) : ℚ :=
  if o.precisionReduce then o.decreaseNum * s.windowd o
  else (ratToInt (o.decreaseNum * s.window o) : ℚ)

/-- `rtt_timeout` exits on a negative timeout. -/
def setRtxTimer (s : TcpAgent) : TcpAgent :=
  { s with
    rtxPending := true
    rtt := { s.rtt with exited := s.rtt.exited || decide (s.rtt.tBackoff < 0) } }

def rttBackoff (s : TcpAgent) : TcpAgent :=
  { s with rtt := { s.rtt with
    tBackoff :=
      if s.rtt.tBackoff < 64 ∨ o.rfc2988 then int32 (s.rtt.tBackoff * 2) else s.rtt.tBackoff } }

def cancelRtxTimer (s : TcpAgent) : TcpAgent := { s with rtxPending := false }

/-- `ssthresh_` before it is raised to 2. -/
def cutSsthresh (how : SsthreshCut) (s : TcpAgent) : ℤ :=
  match how with
  | .none => s.ssthresh
  | .half =>
    if s.firstDecrease ∨ s.cwnd < s.ssthresh ∨ s.lastCwndAction = .timeout then
      ratToInt (s.halfwin o)
    else ratToInt (s.decreasewin o)
  | .threeQuarter =>
    if (s.ssthresh : ℚ) < 3 * s.cwnd / 4 then ratToInt (3 * s.cwnd / 4) else s.ssthresh

/-- The window that `CLOSE_CWND_HALF` leaves. -/
def cutHalf (s : TcpAgent) : ℚ :=
  if s.firstDecrease ∨ s.cwnd < s.ssthresh ∨ o.decreaseNum = 1 / 2 then s.halfwin o
  else s.decreasewin o

/-- `wnd_restart_` is 1, and `wnd_init_` may have been lowered. -/
def cutCwnd (how : CwndCut) (s : TcpAgent) : ℚ :=
  match how with
  | .none => s.cwnd
  | .half => s.cutHalf o
  | .halfWithMin => if s.decreasewin o < 1 then 1 else s.decreasewin o
  | .restart => 1
  | .init => ratToInt s.wndInit
  | .one => 1
  | .halfWay =>
    let win := if o.precisionReduce then s.windowd o else (s.window o : ℚ)
    let cwnd := s.quiet.wUsed + o.decreaseNum * (win - s.quiet.wUsed)
    if cwnd < 1 then 1 else cwnd

def slowdown (ssthresh : SsthreshCut) (cwnd : CwndCut) (s : TcpAgent) : TcpAgent :=
  { s with
    ssthresh := if s.cutSsthresh o ssthresh < 2 then 2 else s.cutSsthresh o ssthresh
    cwnd := s.cutCwnd o cwnd
    firstDecrease := false }

/-- `slowdown(CWND_HALF_WITH_MIN|TCP_IDLE)`, `n` times. -/
def idle (n : ℤ) (s : TcpAgent) : TcpAgent := (slowdown o .none .halfWithMin)^[n.toNat] s

/-- `rtt_counting`: the sender has been idle. -/
def rttIdle (clock : TcpClock) (rtt : ℤ) (s : TcpAgent) : TcpAgent :=
  if clock.now - s.quiet.tLast ≥ 2 * rtt then
    let rtts := ((clock.now - s.quiet.tLast) * s.quiet.rttGoodcount).tdiv (rtt * 2)
      - s.quiet.backoffs
    let s : TcpAgent := { s with quiet := { s.quiet with backoffs := 0 } }
    if rtts > 0 then
      let s := idle o rtts (s.slowdown o .threeQuarter .none)
      { s with quiet := { s.quiet with
        rttPrev := s.quiet.rttCount
        wUsed := 0 } }
    else s
  else s

/-- `rtt_counting`: the round trips of the last tick. -/
def rttRound (clock : TcpClock) (rtt : ℤ) (q : Quiescence) : Quiescence :=
  if clock.now - q.tStart ≥ 2 * rtt then
    let q : Quiescence :=
      if q.rttCount > q.rttGoodcount ∨ q.fFull then
        { q with rttGoodcount := if q.rttCount < 1 then 1 else q.rttCount }
      else q
    { q with
      rttPrev := q.rttPrev - q.rttCount
      rttCount := 0
      tStart := clock.now
      fFull := false }
  else q

/-- `rtt_counting`: whether the window is used up. -/
def rttUsed (s : TcpAgent) : TcpAgent :=
  if s.tSeqno = s.highestAck + s.window o then
    { s with quiet := { s.quiet with
      wUsed := 0
      fFull := true
      rttPrev := s.quiet.rttCount } }
  else if s.tSeqno = s.curseq - 1 then
    let tmp := s.tSeqno - s.highestAck
    let s : TcpAgent := { s with quiet := { s.quiet with
      wUsed := if tmp > s.quiet.wUsed then tmp else s.quiet.wUsed } }
    if s.quiet.rttCount - s.quiet.rttPrev ≥ 2 then
      let s := (s.slowdown o .threeQuarter .none).slowdown o .none .halfWay
      { s with quiet := { s.quiet with
        rttPrev := s.quiet.rttCount
        backoffs := s.quiet.backoffs + 1
        wUsed := 0 } }
    else s
  else s

def rttCounting (clock : TcpClock) (s : TcpAgent) : TcpAgent :=
  let rtt := if clock.rtt < 1 then 1 else clock.rtt
  let s := s.rttIdle o clock rtt
  let s := rttUsed o { s with
    quiet := rttRound clock rtt { s.quiet with tLast := clock.now } }
  if s.quiet.fCounting then s
  else { s with quiet := { s.quiet with
    wTimed := s.tSeqno
    fCounting := true } }

/-- `process_qoption_after_send`: the sender has been idle. -/
def qoptionIdle (clock : TcpClock) (s : TcpAgent) : TcpAgent :=
  if clock.now - s.quiet.tLast ≥ clock.rto then
    let s := idle o ((clock.now - s.quiet.tLast).tdiv clock.rto) (s.slowdown o .threeQuarter .none)
    { s with quiet := { s.quiet with
      tPrev := clock.now
      wUsed := 0 } }
  else s

/-- `process_qoption_after_send`: whether the window is used up. -/
def qoptionUsed (clock : TcpClock) (s : TcpAgent) : TcpAgent :=
  if s.tSeqno = s.highestAck + s.window o then
    { s with quiet := { s.quiet with
      tPrev := clock.now
      wUsed := 0 } }
  else if s.tSeqno = s.curseq - 1 then
    let tmp := s.tSeqno - s.highestAck
    let s : TcpAgent := { s with quiet := { s.quiet with
      wUsed := if tmp > s.quiet.wUsed then tmp else s.quiet.wUsed } }
    if clock.now - s.quiet.tPrev ≥ clock.rto then
      let s := (s.slowdown o .threeQuarter .none).slowdown o .none .halfWay
      { s with quiet := { s.quiet with
        tPrev := clock.now
        wUsed := 0 } }
    else s
  else s

/-- The window of a sender that has been idle or limited by the application is reduced. -/
def processQoptionAfterSend (clock : TcpClock) (s : TcpAgent) : TcpAgent :=
  if o.enblRTTCtr then s.rttCounting o clock
  else
    let s := s.qoptionIdle o clock
    qoptionUsed o clock { s with quiet := { s.quiet with tLast := clock.now } }

def processQoptionAfterAck (seqno : ℤ) (s : TcpAgent) : TcpAgent :=
  if s.quiet.fCounting then
    if seqno ≥ s.quiet.wTimed then
      { s with quiet := { s.quiet with
        rttCount := s.quiet.rttCount + 1
        fCounting := false } }
    else if s.dupacks = o.numdupacks then
      { s with quiet := { s.quiet with rttCount := s.quiet.rttCount + 1 } }
    else s
  else s

def output (seqno : ℤ) (s : TcpAgent) : TcpAgent :=
  let forceSetRtxTimer := decide (s.highestAck = s.maxseq)
  let s : TcpAgent := { s with
    curseq := if seqno = 0 ∧ o.syn then s.curseq + 1 else s.curseq
    sent := seqno :: s.sent
    maxseq := if seqno > s.maxseq then seqno else s.maxseq
    rtt :=
      if seqno > s.maxseq ∧ ¬s.rtt.rttActive then
        { s.rtt with
          rttActive := true
          rttSeq := if seqno > s.rtt.rttSeq then seqno else s.rtt.rttSeq }
      else s.rtt }
  if ¬s.rtxPending ∨ forceSetRtxTimer then s.setRtxTimer else s

/-- `output` with what follows it in `send_much` and `send_one`. -/
def sendNext (clock : TcpClock) (s : TcpAgent) : TcpAgent :=
  let s := s.output o s.tSeqno
  let s := if o.qOption then s.processQoptionAfterSend o clock else s
  { s with tSeqno := s.tSeqno + 1 }

/-- The loop of `send_much`. -/
def sendLoop (clock : TcpClock) (force : Bool) : ℕ → ℤ → TcpAgent → Option TcpAgent
  | 0, _, _ => none
  | fuel + 1, npackets, s =>
    if s.tSeqno ≤ s.highestAck + s.window o ∧ s.tSeqno < s.curseq then
      if o.overhead = 0 ∨ force then
        let s := s.sendNext o clock
        if o.maxburst ≠ 0 ∧ npackets + 1 = o.maxburst then some s
        else sendLoop clock force fuel (npackets + 1) s
      else if s.delsndPending then sendLoop clock force fuel npackets s
      else some { s with delsndPending := true }
    else some s

/-- The burst timer is set by other agents only. -/
def sendMuch (clock : TcpClock) (force : Bool) (s : TcpAgent) : Option TcpAgent :=
  if ¬force ∧ s.delsndPending then some s
  else s.sendLoop o clock force ((s.curseq - s.tSeqno).toNat + 2) 0

/-- Called with `mild` 0 only. -/
def resetRtxTimer (backoff : Bool) (s : TcpAgent) : TcpAgent :=
  let s := (if backoff then s.rttBackoff o else s).setRtxTimer
  { s with
    tSeqno := s.highestAck + 1
    rtt := { s.rtt with rttActive := false } }

def newtimer (ack : ℤ) (s : TcpAgent) : TcpAgent :=
  if s.tSeqno > ack ∨ ack < s.maxseq ∨ s.cwnd < 1 then s.setRtxTimer else s.cancelRtxTimer

def limitedSlowStart (cwnd : ℚ) (maxSsthresh : ℤ) (increment : ℚ) : ℚ :=
  if maxSsthresh ≤ 0 then increment
  else
    let round := ratToInt (cwnd / (maxSsthresh / 2))
    let increment1 : ℚ := if round > 0 then 1 / round else 0
    if increment < increment1 then increment1 else increment

/-- With `wnd_option_` 1. -/
def opencwnd (s : TcpAgent) : TcpAgent :=
  let cwnd :=
    if s.cwnd < s.ssthresh then s.cwnd + 1
    else
      let increment := o.increaseNum / s.cwnd
      s.cwnd +
        if (s.lastCwndAction = .none ∨ s.lastCwndAction = .timeout) ∧ o.maxSsthresh > 0 then
          limitedSlowStart s.cwnd o.maxSsthresh increment
        else increment
  { s with cwnd := if o.maxcwnd ≠ 0 ∧ ratToInt cwnd > o.maxcwnd then o.maxcwnd else cwnd }

/-- `newack`: the backoff ends unless ECN has asked for it with a window of one packet. -/
def endBackoff (a : TcpAck) (ect : Bool) (r : RtxBackoff) : RtxBackoff :=
  if ¬ect ∨ ¬r.ecnBackoff ∨ ¬a.ecnecho then
    { r with
      tBackoff := 1
      ecnBackoff := false }
  else r

/-- `newack`: the round trip is measured, by its timestamp or by the packet that is timed. -/
def newackRtt (a : TcpAck) (ect : Bool) (r : RtxBackoff) : RtxBackoff :=
  if a.noTs then r
  else
    let r := if o.tsOption ∧ o.tsResetRTO then endBackoff a ect r else r
    if r.rttActive ∧ a.seqno ≥ r.rttSeq then
      { endBackoff a ect r with rttActive := false }
    else r

def newack (a : TcpAck) (s : TcpAgent) : TcpAgent :=
  let s := if o.timerfix then s else s.newtimer a.seqno
  let s : TcpAgent := { s with
    dupacks := 0
    lastAck := a.seqno
    prevHighestAck := s.highestAck
    highestAck := a.seqno
    tSeqno := if s.tSeqno < a.seqno + 1 then a.seqno + 1 else s.tSeqno
    rtt := newackRtt o a s.ect s.rtt }
  if o.timerfix then s.newtimer a.seqno else s

/-- Whether `ecn` responds to the congestion indication. -/
def Responds (seqno : ℤ) (s : TcpAgent) : Prop := seqno > s.recover ∨ s.lastCwndAction = .timeout

instance (seqno : ℤ) (s : TcpAgent) : Decidable (s.Responds seqno) :=
  inferInstanceAs (Decidable (seqno > s.recover ∨ s.lastCwndAction = .timeout))

/-- `ecn`: with a window of one packet the timer is backed off, but not the first time. -/
def ecnRtt (s : TcpAgent) : TcpAgent :=
  if s.cwnd ≤ 1 then
    if s.rtt.ecnBackoff then s.rttBackoff o
    else { s with rtt := { s.rtt with ecnBackoff := true } }
  else { s with rtt := { s.rtt with ecnBackoff := false } }

def ecn (seqno : ℤ) (s : TcpAgent) : TcpAgent :=
  if s.Responds seqno then
    slowdown o .half .half { s.ecnRtt o with
      recover := s.maxseq
      lastCwndAction := .ecn }
  else s

def networkLimited (s : TcpAgent) : Bool := decide (s.tSeqno > s.prevHighestAck + s.window o)

def spuriousTimeout (s : TcpAgent) : TcpAgent :=
  { s with
    frto := 0
    cwnd :=
      if o.spuriousResponse = 2 then s.ssthresh
      else if o.spuriousResponse = 3 then 1
      else ((s.tSeqno - s.prevHighestAck : ℤ) : ℚ)
    ssthresh := s.pipePrev
    recover := s.highestAck - 1 }

/-- `recv_newack_helper`: the window grows unless the acknowledgement carries ECN-Echo. -/
def newackWindow (a : TcpAck) (s : TcpAgent) : TcpAgent :=
  if ¬s.ect ∨ ¬a.ecnecho ∨ o.oldEcn ∧ s.ecnBurst then
    if ¬o.controlIncrease ∨ s.networkLimited o then s.opencwnd o else s
  else s

/-- `recv_newack_helper`: the state of ECN. -/
def newackEcn (a : TcpAck) (s : TcpAgent) : TcpAgent :=
  { s with
    ecnBurst :=
      if s.ect then
        if ¬s.ecnBurst ∧ a.ecnecho then true
        else if s.ecnBurst ∧ ¬a.ecnecho then false
        else s.ecnBurst
      else s.ecnBurst
    rtt := if s.ect ∧ ¬a.ecnecho then { s.rtt with ecnBackoff := false } else s.rtt
    ect := if ¬s.ect ∧ a.ecnecho ∧ ¬a.congAction then true else s.ect }

/-- `recv_newack_helper`: everything may be acknowledged. -/
def newackDone (s : TcpAgent) : TcpAgent :=
  let s : TcpAgent := { s with
    closed := if s.highestAck ≥ s.curseq - 1 ∧ ¬s.closed then true else s.closed }
  if o.qOption ∧ s.curseq = s.highestAck + 1 then s.cancelRtxTimer else s

/-- `recv_newack_helper`: F-RTO. -/
def newackFrto (s : TcpAgent) : TcpAgent :=
  if s.frto = 1 then
    if ((s.recover + 1 : ℤ) : ℚ) ≥ s.highestAck + o.wnd ∨ s.recover + 1 ≥ s.curseq then
      { s with frto := 0 }
    else if s.highestAck = s.recover then { s with frto := 0 }
    else { s with
      tSeqno := s.recover + 1
      frto := 2 }
  else if s.frto = 2 then s.spuriousTimeout o
  else s

def recvNewackHelper (a : TcpAck) (s : TcpAgent) : TcpAgent :=
  ((((s.newack o a).newackWindow o a).newackEcn a).newackDone o).newackFrto o

/-- Without Quick-Start. -/
def initialWindow (s : TcpAgent) : Option ℚ :=
  if s.wndInitOption = 1 then some s.wndInit
  else if s.wndInitOption = 2 then
    some (if o.size ≤ 1095 then 4 else if o.size < 2190 then 3 else 2)
  else none

def sendOne (clock : TcpClock) (s : TcpAgent) : TcpAgent :=
  if (s.tSeqno : ℚ) ≤ s.highestAck + o.wnd ∧ s.tSeqno < s.curseq ∧
      (s.tSeqno : ℚ) ≤ s.highestAck + s.cwnd + s.dupacks then
    s.sendNext o clock
  else s

def dupackAction (s : TcpAgent) : TcpAgent :=
  if s.highestAck > s.recover ∨ ¬o.bugFix ∧ ¬o.ecn ∨ o.bugfixSs ∧ s.highestAck = 0 then
    (slowdown o .half .one { s with
      recover := s.maxseq
      lastCwndAction := .dupack }).resetRtxTimer o false
  else if o.ecn ∧ s.lastCwndAction = .ecn then
    (slowdown o .none .one { s with lastCwndAction := .dupack }).resetRtxTimer o false
  else if o.bugFix then s
  else
    (slowdown o .half .one { s with
      recover := s.maxseq
      lastCwndAction := .dupack }).resetRtxTimer o false

/-- A duplicate acknowledgement shows that the timeout was valid. -/
def recvFrtoHelper (ack : ℤ) (s : TcpAgent) : TcpAgent :=
  if ack = s.lastAck ∧ s.frto ≠ 0 then
    { s with
      tSeqno := s.highestAck + 1
      cwnd := s.frto
      frto := 0
      dupacks := -1 }
  else s

def tcpEln (clock : TcpClock) (ack : ℤ) (s : TcpAgent) : Option TcpAgent :=
  let s : TcpAgent := { s with dupacks := s.dupacks + 1 }
  if s.dupacks = o.elnRxmitThresh ∧ ack > s.elnLastRxmit then
    some { s.output o (s.lastAck + 1) with elnLastRxmit := s.lastAck + 1 }
  else s.sendMuch o clock false

/-- `recv`: a duplicate acknowledgement. -/
def recvDupack (clock : TcpClock) (s : TcpAgent) : TcpAgent :=
  let s : TcpAgent := { s with dupacks := s.dupacks + 1 }
  if s.dupacks = o.numdupacks ∧ ¬o.noFastRetrans then s.dupackAction o
  else if s.dupacks < o.numdupacks ∧ o.singledup then s.sendOne o clock
  else s

/-- The end of `recv`. -/
def recvTail (clock : TcpClock) (ack : ℤ) (s : TcpAgent) : Option TcpAgent :=
  let s := if o.qOption ∧ o.enblRTTCtr then s.processQoptionAfterAck o ack else s
  if ack ≥ s.lastAck ∨ o.aggressiveMaxburst then s.sendMuch o clock false else some s

def recv (clock : TcpClock) (a : TcpAck) (s : TcpAgent) : Option TcpAgent :=
  if a.stale then some s
  else
    let s := if a.ecnecho ∧ o.ecn then s.ecn o a.seqno else s
    let s := s.recvFrtoHelper a.seqno
    if a.seqno > s.lastAck then
      let s := s.recvNewackHelper o a
      (if s.lastAck = 0 ∧ o.delayGrowth then
        (s.initialWindow o).map fun w => { s with cwnd := w }
      else some s).bind (recvTail o clock a.seqno)
    else if a.seqno = s.lastAck then
      if a.eln ∧ o.eln then s.tcpEln o clock a.seqno
      else (s.recvDupack o clock).recvTail o clock a.seqno
    else s.recvTail o clock a.seqno

/-- What a timeout does to the window. -/
def timeoutWindow (s : TcpAgent) : TcpAgent :=
  if s.highestAck = s.maxseq ∧ ¬o.slowStartRestart then s
  else
    let s : TcpAgent := { s with
      recover := s.maxseq
      wndInitOption := if s.highestAck = -1 ∧ s.wndInitOption = 2 then 1 else s.wndInitOption
      wndInit :=
        if s.highestAck = -1 ∧ s.wndInitOption = 1 ∧ s.wndInit > 1 ∧ o.bugfixSs then 1
        else s.wndInit }
    if s.highestAck = s.maxseq ∧ o.restartBugfix then s.slowdown o .none .one
    else if s.highestAck < s.recover ∧ s.lastCwndAction = .ecn then
      let s := s.slowdown o .none .one
      if o.frtoEnabled ∨ o.sfrtoEnabled then { s with frto := 1 } else s
    else
      let s := slowdown o .half .restart { s with lastCwndAction := .timeout }
      if o.frtoEnabled ∨ o.sfrtoEnabled then { s with frto := 1 } else s

/-- `timeout(TCP_TIMER_RTX)`. -/
def timeout (clock : TcpClock) (s : TcpAgent) : Option TcpAgent :=
  let s : TcpAgent := { s with frto := 0 }
  let s : TcpAgent := { s with
    pipePrev := if s.window o > s.ssthresh then s.window o else s.ssthresh
    cwnd := if s.cwnd < 1 then 1 else s.cwnd }
  let s := s.timeoutWindow o
  let s := s.resetRtxTimer o !(decide (s.highestAck = s.maxseq) && o.restartBugfix)
  sendMuch o clock false { s with lastCwndAction := .timeout }

/-- `curseq_` after `sendmsg`. -/
def sendmsgCurseq (nbytes : ℤ) (s : TcpAgent) : ℤ :=
  if nbytes = -1 ∧ s.curseq ≤ tcpMaxseq then tcpMaxseq
  else s.curseq + (nbytes.tdiv o.size + if nbytes.tmod o.size ≠ 0 then 1 else 0)

def sendmsg (clock : TcpClock) (nbytes : ℤ) (s : TcpAgent) : Option TcpAgent :=
  sendMuch o clock false { s with curseq := s.sendmsgCurseq o nbytes }

def advanceby (clock : TcpClock) (delta : ℤ) (s : TcpAgent) : Option TcpAgent :=
  sendMuch o clock false { s with
    curseq := s.curseq + delta
    closed := if delta > 0 then false else s.closed }

/-- `reset` of a new agent; `fresh` is what it leaves alone. -/
def reset (fresh : TcpAgent) : Option TcpAgent :=
  let s : TcpAgent := { fresh with
    dupacks := 0
    curseq := 0
    wndInit := o.wndInit
    wndInitOption := o.wndInitOption }
  (if o.syn ∧ o.delayGrowth then some 1 else s.initialWindow o).map fun cwnd => { s with
    cwnd := cwnd
    tSeqno := 0
    maxseq := -1
    lastAck := -1
    highestAck := -1
    ssthresh :=
      if o.maxSsthresh > 0 ∧ o.maxSsthresh < ratToInt o.wnd then o.maxSsthresh else ratToInt o.wnd
    recover := 0
    closed := false
    lastCwndAction := .none
    firstDecrease := true
    ecnBurst := false
    ect := false
    frto := 0
    rtt := { s.rtt with
      tBackoff := 1
      rttSeq := -1
      exited := false }
    rtxPending := false
    delsndPending := false
    sent := [] }

end TcpAgent

inductive TcpEvent where
  | sendmsg (nbytes : ℤ)
  | advanceby (delta : ℤ)
  | ack (a : TcpAck)
  | rtxExpire
  | delsndExpire

namespace TcpAgent

variable (o : TcpOptions)

/-- The process goes on after an event unless `rtt_timeout` has exited. -/
def goesOn (s : TcpAgent) : Option (TcpAgent × Unit) := if s.rtt.exited then none else some (s, ())

/-- A timer is not pending while its expiry is handled. -/
def machine : Machine TcpAgent (TcpClock × TcpEvent) Unit where
  step s
    | (clock, .sendmsg nbytes) => (s.sendmsg o clock nbytes).bind goesOn
    | (clock, .advanceby delta) => (s.advanceby o clock delta).bind goesOn
    | (clock, .ack a) => (s.recv o clock a).bind goesOn
    | (clock, .rtxExpire) =>
      if s.rtxPending then (timeout o clock { s with rtxPending := false }).bind goesOn
      else none
    | (clock, .delsndExpire) =>
      if s.delsndPending then
        (sendMuch o clock true { s with delsndPending := false }).bind goesOn
      else none

end TcpAgent

end Ns2
