import Mathlib.Tactic.Positivity
import Ns2.Lib.Machine
import Ns2.Mac.MacTimers

/-! `Mac802_11` of a station in ad-hoc mode (`infra_mode_` 0, `bss_id_` IBSS_ID) with
`bugFix_timer_` and without an EOT target; `xmit_failure_` hands over a copy of the packet. `none`
is an assertion that fails. -/

namespace Ns2

inductive MacState where
  | idle
  | polling
  | recv
  | send
  | rts
  | bcn
  | cts
  | ack
  | coll
  | mgmt
deriving DecidableEq, Repr

inductive MacSubtype where
  | rts
  | cts
  | ack
  | data
deriving DecidableEq, Repr

/-- `MAC_BROADCAST`. -/
def macBroadcast : ℕ := 0xffffffff

/-- `duration` in microseconds, `size` in bytes; `rxPr` and `cpThresh` are those of `txinfo_`. -/
structure MacPacket where
  subtype : MacSubtype
  ra : ℕ
  ta : ℕ
  duration : ℕ
  scontrol : ℕ
  retry : Bool
  toDs : Bool
  fromDs : Bool
  size : ℕ
  txtime : ℚ
  error : Bool
  rxPr : ℚ
  cpThresh : ℚ
deriving DecidableEq, Repr

/-- What the upper layer gives to `send`. -/
structure Msdu where
  dst : ℕ
  size : ℕ
deriving DecidableEq, Repr

/-- `PHY_MIB`, `MAC_MIB`, the rates and the address. -/
structure Station where
  cwMin : ℕ
  cwMax : ℕ
  slotTime : ℚ
  sifs : ℚ
  preambleLength : ℕ
  plcpHeaderLength : ℕ
  plcpDataRate : ℚ
  rtsThreshold : ℕ
  shortRetryLimit : ℕ
  longRetryLimit : ℕ
  basicRate : ℚ
  dataRate : ℚ
  index : ℕ
  cacheNodeCount : ℕ
  cwMin_pos : 0 < cwMin
  cwMax_pos : 0 < cwMax
  slotTime_pos : 0 < slotTime
  sifs_pos : 0 < sifs
  plcpDataRate_pos : 0 < plcpDataRate
  basicRate_pos : 0 < basicRate
  dataRate_pos : 0 < dataRate
  index_ne : index ≠ macBroadcast

namespace Station

variable (st : Station)

def difs : ℚ := st.sifs + 2 * st.slotTime

def plcpHdrLen : ℕ := (st.preambleLength + st.plcpHeaderLength) / 8

/-- With the 30 bytes before `dh_body` and the checksum. -/
def hdrLen11 : ℕ := st.plcpHdrLen + 30 + 4

def rtsLen : ℕ := st.plcpHdrLen + 20

def ctsLen : ℕ := st.plcpHdrLen + 14

def ackLen : ℕ := st.plcpHdrLen + 14

def eifs : ℚ := st.sifs + st.difs + ((8 * st.ackLen : ℕ) : ℚ) / st.plcpDataRate

/-- `txtime(psz, drt)`; no packet is shorter than the PLCP header. -/
def txtime (psz : ℕ) (drt : ℚ) : ℚ :=
  ((st.plcpHdrLen * 8 : ℕ) : ℚ) / st.plcpDataRate + (((psz - st.plcpHdrLen) * 8 : ℕ) : ℚ) / drt

end Station

/-- `DSSS_MaxPropagationDelay`. -/
def maxPropagationDelay : ℚ := 2 / 10 ^ 6

def sec (t : ℚ) : ℚ := t / 10 ^ 6

/-- The cast to `u_int16_t` wraps, also below zero. -/
def usec (t : ℚ) : ℕ := (⌊t * 10 ^ 6 + 1 / 2⌋ % 65536).toNat

structure Mac80211 where
  clock : ℚ
  nav : ℚ
  rxState : MacState
  txState : MacState
  txActive : Bool
  pktRx : Option MacPacket
  pktTx : Option MacPacket
  pktRTS : Option MacPacket
  pktCTRL : Option MacPacket
  callback : Bool
  cw : ℕ
  ssrc : ℕ
  slrc : ℕ
  staSeqno : ℕ
  /-- The last sequence number of each sender. -/
  cache : ℕ → ℕ
  mhIF : MacTimer
  mhNav : MacTimer
  mhRecv : MacTimer
  mhSend : MacTimer
  mhDefer : MacTimer
  mhBackoff : BackoffTimer

/-- What an event reads besides the station: the random number of the one backoff it can start, and what
the upper layer sends when it is called back and when a packet is delivered to it. -/
structure MacInput where
  random : ℕ
  onCallback : Option Msdu
  onDelivery : Option Msdu

namespace Mac80211

def init (st : Station) : Mac80211 where
  clock := 0
  nav := 0
  rxState := .idle
  txState := .idle
  txActive := false
  pktRx := none
  pktTx := none
  pktRTS := none
  pktCTRL := none
  callback := false
  cw := st.cwMin
  ssrc := 0
  slrc := 0
  staSeqno := 1
  cache := fun _ => 0
  mhIF := .off
  mhNav := .off
  mhRecv := .off
  mhSend := .off
  mhDefer := .off
  mhBackoff := .off

def isIdle (s : Mac80211) : Bool :=
  if s.rxState ≠ .idle then false
  else if s.txState ≠ .idle then false
  else if s.nav > s.clock then false
  else true

def incCw (st : Station) (s : Mac80211) : Mac80211 :=
  let cw := 2 * s.cw + 1
  { s with cw := if cw > st.cwMax then st.cwMax else cw }

def rstCw (st : Station) (s : Mac80211) : Mac80211 := { s with cw := st.cwMin }

/-- `mhBackoff_.start(cw_, is_idle(), difs)`. -/
def startBackoff (st : Station) (i : MacInput) (difs : ℚ) (s : Mac80211) : Option Mac80211 := do
  let b ← s.mhBackoff.start st.slotTime s.clock i.random s.cw s.isIdle difs
  some { s with mhBackoff := b }

def setNav (us : ℕ) (s : Mac80211) : Option Mac80211 :=
  let t := (us : ℚ) / 10 ^ 6
  if s.clock + t > s.nav then do
    let nav ← (if s.mhNav.busy = true then s.mhNav.stop else some s.mhNav)
    let nav ← nav.start s.clock t
    some { s with
      nav := s.clock + t
      mhNav := nav }
  else some s

def checkBackoffTimer (st : Station) (s : Mac80211) : Option Mac80211 := do
  let b ← (if s.isIdle = true ∧ s.mhBackoff.paused = true then s.mhBackoff.resume s.clock st.difs
    else some s.mhBackoff)
  let b ← (if s.isIdle = false ∧ b.busy = true ∧ b.paused = false then b.pause st.slotTime s.clock
    else some b)
  some { s with mhBackoff := b }

def setRxState (st : Station) (newState : MacState) (s : Mac80211) : Option Mac80211 :=
  checkBackoffTimer st { s with rxState := newState }

def setTxState (st : Station) (newState : MacState) (s : Mac80211) : Option Mac80211 :=
  checkBackoffTimer st { s with txState := newState }

/-- A packet that is coming in is missed, and has to be discarded. -/
def markMissed (s : Mac80211) : Option Mac80211 :=
  if s.rxState ≠ .idle then
    match s.pktRx with
    | none => none
    | some p => some { s with pktRx := some { p with error := true } }
  else some s

def transmit (p : MacPacket) (timeout : ℚ) (s : Mac80211) : Option Mac80211 := do
  let s ← markMissed { s with txActive := true }
  let send ← s.mhSend.start s.clock timeout
  let intf ← s.mhIF.start s.clock p.txtime
  some { s with
    mhSend := send
    mhIF := intf }

def controlPacket (st : Station) (subtype : MacSubtype) (ra ta duration size : ℕ) : MacPacket where
  subtype := subtype
  ra := ra
  ta := ta
  duration := duration
  scontrol := 0
  retry := false
  toDs := false
  fromDs := false
  size := size
  txtime := st.txtime size st.basicRate
  error := false
  rxPr := 0
  cpThresh := 0

def sendRTS (st : Station) (dst : ℕ) (s : Mac80211) : Option Mac80211 :=
  match s.pktTx with
  | none => none
  | some p => asserting (s.pktRTS = none) <|
    if p.size < st.rtsThreshold ∨ dst = macBroadcast then some s
    else
      let duration := usec (st.sifs + st.txtime st.ctsLen st.basicRate + st.sifs + p.txtime + st.sifs
        + st.txtime st.ackLen st.basicRate)
      some { s with pktRTS := some (controlPacket st .rts dst st.index duration st.rtsLen) }

def sendCTS (st : Station) (dst rtsDuration : ℕ) (s : Mac80211) : Option Mac80211 :=
  asserting (s.pktCTRL = none) <|
    let duration := usec (sec rtsDuration - st.sifs - st.txtime st.ctsLen st.basicRate)
    some { s with pktCTRL := some (controlPacket st .cts dst 0 duration st.ctsLen) }

def sendACK (st : Station) (dst : ℕ) (s : Mac80211) : Option Mac80211 :=
  asserting (s.pktCTRL = none) <|
    some { s with pktCTRL := some (controlPacket st .ack dst 0 0 st.ackLen) }

def dataPacket (st : Station) (m : Msdu) : MacPacket where
  subtype := .data
  ra := m.dst
  ta := st.index
  duration := if m.dst ≠ macBroadcast then usec (st.txtime st.ackLen st.basicRate + st.sifs) else 0
  scontrol := 0
  retry := false
  toDs := false
  fromDs := false
  size := m.size + st.hdrLen11
  txtime := st.txtime (m.size + st.hdrLen11) (if m.dst ≠ macBroadcast then st.dataRate else st.basicRate)
  error := false
  rxPr := 0
  cpThresh := 0

def sendDATA (st : Station) (m : Msdu) (s : Mac80211) : Option Mac80211 :=
  asserting (s.pktTx = none) (some { s with pktTx := some (dataPacket st m) })

/-- `dh_scontrol = sta_seqno_++`. -/
def numberData (s : Mac80211) : Mac80211 :=
  { s with
    pktTx := s.pktTx.map fun p => { p with scontrol := s.staSeqno }
    staSeqno := (s.staSeqno + 1) % 65536 }

/-- A station that is already deferring does not start its backoff timer. -/
def waitDifs (st : Station) (i : MacInput) (s : Mac80211) : Option Mac80211 :=
  if s.mhBackoff.busy = false then
    if s.isIdle = true then
      if s.mhDefer.busy = false then startBackoff st i st.difs s else some s
    else startBackoff st i 0 s
  else some s

def send (st : Station) (i : MacInput) (m : Msdu) (s : Mac80211) : Option Mac80211 := do
  let s ← sendDATA st m { s with callback := true }
  let s ← sendRTS st m.dst s
  waitDifs st i (numberData s)

/-- `callback_->handle`, after which the upper layer may send again. -/
def callBack (st : Station) (i : MacInput) (s : Mac80211) : Option Mac80211 :=
  match i.onCallback with
  | none => some { s with callback := false }
  | some m => send st i m { s with callback := false }

/-- `mhDefer_.start(phymib_.getSIFS())`. -/
def startDefer (st : Station) (s : Mac80211) : Option Mac80211 := do
  let t ← s.mhDefer.start s.clock st.sifs
  some { s with mhDefer := t }

/-- `tx_resume` before `setTxState(MAC_IDLE)`. -/
def resumeNext (st : Station) (i : MacInput) (s : Mac80211) : Option Mac80211 :=
  if s.pktCTRL.isSome then startDefer st s
  else if s.pktRTS.isSome then
    if s.mhBackoff.busy = false then startBackoff st i st.difs s else some s
  else match s.pktTx with
    | some p =>
      if s.mhBackoff.busy = false then
        if p.size < st.rtsThreshold ∨ p.ra = macBroadcast then startBackoff st i st.difs s
        else startDefer st s
      else some s
    | none => if s.callback = true then callBack st i s else some s

def txResume (st : Station) (i : MacInput) (s : Mac80211) : Option Mac80211 :=
  asserting (s.mhSend.busy = false) <| asserting (s.mhDefer.busy = false) <| do
    let s ← resumeNext st i s
    setTxState st .idle s

def rxResume (st : Station) (s : Mac80211) : Option Mac80211 :=
  asserting (s.pktRx = none) <| asserting (s.mhRecv.busy = false) <| setRxState st .idle s

/-- `setTxState(tx)`, `transmit(p, timeout)` and `return 0`. -/
def sendNow (st : Station) (tx : MacState) (p : MacPacket) (timeout : ℚ) (s : Mac80211) :
    Option (Bool × Mac80211) := do
  let s ← setTxState st tx s
  let s ← transmit p timeout s
  some (true, s)

/-- How long a station that sends the CTS waits for the data. -/
def ctsTimeout (st : Station) (p : MacPacket) : ℚ :=
  st.txtime st.ctsLen st.basicRate + maxPropagationDelay + sec p.duration + maxPropagationDelay - st.sifs
    - st.txtime st.ackLen st.basicRate

def checkPktCTRL (st : Station) (s : Mac80211) : Option (Bool × Mac80211) :=
  match s.pktCTRL with
  | none => some (false, s)
  | some p =>
    if s.txState = .cts ∨ s.txState = .ack then some (false, s)
    else match p.subtype with
      | .cts =>
        if s.isIdle = false then some (true, { s with pktCTRL := none })
        else sendNow st .cts p (ctsTimeout st p) s
      | .ack => sendNow st .ack p (st.txtime st.ackLen st.basicRate) s
      | _ => none

def checkPktRTS (st : Station) (i : MacInput) (s : Mac80211) : Option (Bool × Mac80211) :=
  asserting (s.mhBackoff.busy = false) <|
    match s.pktRTS with
    | none => some (false, s)
    | some p => match p.subtype with
      | .rts =>
        if s.isIdle = false then do
          let s ← startBackoff st i 0 (incCw st s)
          some (true, s)
        else sendNow st .rts p (st.txtime st.rtsLen st.basicRate + maxPropagationDelay + st.sifs
          + st.txtime st.ctsLen st.basicRate + maxPropagationDelay) s
      | _ => none

def checkPktTx (st : Station) (i : MacInput) (s : Mac80211) : Option (Bool × Mac80211) :=
  asserting (s.mhBackoff.busy = false) <|
    match s.pktTx with
    | none => some (false, s)
    | some p => match p.subtype with
      | .data =>
        if s.isIdle = false then do
          let s ← sendRTS st p.ra s
          let s ← startBackoff st i 0 (incCw st s)
          some (true, s)
        else sendNow st .send p (if p.ra ≠ macBroadcast then p.txtime + maxPropagationDelay + st.sifs
          + st.txtime st.ackLen st.basicRate + maxPropagationDelay else p.txtime) s
      | _ => none

/-- `check_pktRTS`, and `check_pktTx` if it did not return 0. -/
def sendOwn (st : Station) (i : MacInput) (s : Mac80211) : Option Mac80211 := do
  let r ← checkPktRTS st i s
  if r.1 = true then some r.2 else (checkPktTx st i r.2).map Prod.snd

def backoffHandler (st : Station) (i : MacInput) (s : Mac80211) : Option Mac80211 :=
  if s.pktCTRL.isSome then asserting (s.mhSend.busy = true ∨ s.mhDefer.busy = true) (some s)
  else sendOwn st i s

def deferHandler (st : Station) (i : MacInput) (s : Mac80211) : Option Mac80211 :=
  asserting (s.pktCTRL.isSome ∨ s.pktRTS.isSome ∨ s.pktTx.isSome) <| do
    let r ← checkPktCTRL st s
    if r.1 = true then some r.2
    else asserting (r.2.mhBackoff.busy = false) (sendOwn st i r.2)

def navHandler (st : Station) (s : Mac80211) : Option Mac80211 :=
  if s.isIdle = true ∧ s.mhBackoff.paused = true then do
    let b ← s.mhBackoff.resume s.clock st.difs
    some { s with mhBackoff := b }
  else some s

def txHandler (s : Mac80211) : Mac80211 := { s with txActive := false }

def retransmitRTS (st : Station) (i : MacInput) (s : Mac80211) : Option Mac80211 :=
  match s.pktTx, s.pktRTS with
  | some _, some r => asserting (s.mhBackoff.busy = false) <|
    if s.ssrc + 1 ≥ st.shortRetryLimit then
      some (rstCw st { s with
        pktRTS := none
        pktTx := none
        ssrc := 0 })
    else startBackoff st i 0 (incCw st { s with
      pktRTS := some { r with retry := true }
      ssrc := s.ssrc + 1 })
  | _, _ => none

/-- `rcount` is the retry count, which `set` changes. -/
def retryDATA (st : Station) (i : MacInput) (p : MacPacket) (rcount thresh : ℕ) (set : ℕ → Mac80211) :
    Option Mac80211 :=
  if rcount ≥ thresh then some (rstCw st { set 0 with pktTx := none })
  else do
    let s ← sendRTS st p.ra { set rcount with pktTx := some { p with retry := true } }
    startBackoff st i 0 (incCw st s)

def retransmitDATA (st : Station) (i : MacInput) (s : Mac80211) : Option Mac80211 :=
  asserting (s.mhBackoff.busy = false) <|
    match s.pktTx with
    | none => none
    | some p => asserting (s.pktRTS = none) <|
      if p.ra = macBroadcast then startBackoff st i 0 (rstCw st { s with pktTx := none })
      else if p.size ≤ st.rtsThreshold then
        retryDATA st i p (s.ssrc + 1) st.shortRetryLimit fun n => { s with ssrc := n }
      else retryDATA st i p (s.slrc + 1) st.longRetryLimit fun n => { s with slrc := n }

/-- `send_timer` before `tx_resume`. No management frame is under way in ad-hoc mode, so that
`assert(pktBEACON_)` fails. -/
def endSend (st : Station) (i : MacInput) (s : Mac80211) : Option Mac80211 :=
  match s.txState with
  | .mgmt | .bcn => none
  | .rts => retransmitRTS st i s
  | .cts | .ack => asserting (s.pktCTRL.isSome = true) (some { s with pktCTRL := none })
  | .send => retransmitDATA st i s
  | .idle => some s
  | .polling | .recv | .coll => none

def sendTimer (st : Station) (i : MacInput) (s : Mac80211) : Option Mac80211 := do
  let s ← endSend st i s
  txResume st i s

def capture (st : Station) (p : MacPacket) (s : Mac80211) : Option Mac80211 :=
  setNav (usec (st.eifs + p.txtime)) s

/-- The packet that lasts the longest stays. -/
def keepLongest (p : MacPacket) (s : Mac80211) : Option Mac80211 :=
  asserting (s.pktRx.isSome = true) <| asserting (s.mhRecv.busy = true) <|
    if p.txtime > s.mhRecv.expire s.clock then do
      let t ← s.mhRecv.stop
      let t ← t.start s.clock p.txtime
      some { s with
        pktRx := some p
        mhRecv := t }
    else some s

def collision (st : Station) (p : MacPacket) (s : Mac80211) : Option Mac80211 :=
  match s.rxState with
  | .recv => do
    let s ← setRxState st .coll s
    keepLongest p s
  | .coll => keepLongest p s
  | _ => none

def recv (st : Station) (p : MacPacket) (s : Mac80211) : Option Mac80211 :=
  let p := if s.txActive = true ∧ p.error = false then { p with error := true } else p
  if s.rxState = .idle then do
    let s ← setRxState st .recv s
    let t ← s.mhRecv.start s.clock p.txtime
    some { s with
      pktRx := some p
      mhRecv := t }
  else match s.pktRx with
    | none => none
    | some q =>
      if q.rxPr / p.rxPr ≥ p.cpThresh then capture st p s else collision st p s

def stopDefer (s : Mac80211) : Option Mac80211 :=
  if s.mhDefer.busy = true then do
    let t ← s.mhDefer.stop
    some { s with mhDefer := t }
  else some s

def stopSend (s : Mac80211) : Option Mac80211 := do
  let t ← s.mhSend.stop
  some { s with mhSend := t }

def recvRTS (st : Station) (i : MacInput) (p : MacPacket) (s : Mac80211) : Option Mac80211 :=
  if s.txState ≠ .idle then some s
  else if s.pktCTRL.isSome then some s
  else do
    let s ← sendCTS st p.ta p.duration s
    let s ← stopDefer s
    txResume st i s

def recvCTS (st : Station) (i : MacInput) (s : Mac80211) : Option Mac80211 :=
  if s.txState ≠ .rts then some s
  else asserting (s.pktRTS.isSome = true) <| asserting (s.pktTx.isSome = true) <| do
    let s ← stopSend { s with pktRTS := none }
    txResume st i { s with ssrc := 0 }

/-- `uptarget_->recv`: the upper layer sends only if its last callback has been made. -/
def deliver (st : Station) (i : MacInput) (s : Mac80211) : Option Mac80211 :=
  match i.onDelivery with
  | some m => if s.callback = true then some s else send st i m s
  | none => some s

/-- The sequence number cache; a duplicate is not delivered. -/
def checkSeqno (st : Station) (i : MacInput) (p : MacPacket) (s : Mac80211) : Option Mac80211 :=
  if p.ra ≠ macBroadcast ∧ p.ta < st.cacheNodeCount then
    if s.cache p.ta ≠ 0 ∧ s.cache p.ta = p.scontrol then some s
    else deliver st i { s with cache := Function.update s.cache p.ta p.scontrol }
  else deliver st i s

def recvDATA (st : Station) (i : MacInput) (p : MacPacket) (s : Mac80211) : Option Mac80211 :=
  if p.ra ≠ macBroadcast then
    if p.size ≥ st.rtsThreshold then
      if s.txState = .cts then
        asserting (s.pktCTRL.isSome = true) <| do
          let s ← stopSend { s with pktCTRL := none }
          let s ← sendACK st p.ta s
          let s ← txResume st i s
          checkSeqno st i p s
      else some s
    else if s.pktCTRL.isSome then some s
    else do
      let s ← sendACK st p.ta s
      let s ← (if s.mhSend.busy = false then txResume st i s else some s)
      checkSeqno st i p s
  else checkSeqno st i p s

def recvACK (st : Station) (i : MacInput) (s : Mac80211) : Option Mac80211 :=
  if s.txState = .mgmt then do
    let s ← stopSend s
    txResume st i s
  else if s.txState ≠ .send then some s
  else match s.pktTx with
    | none => none
    | some p => do
      let s ← stopSend s
      let s := if p.size ≤ st.rtsThreshold then { s with ssrc := 0 } else { s with slrc := 0 }
      let s := { rstCw st s with pktTx := none }
      let s ← asserting (s.mhBackoff.busy = false) (startBackoff st i 0 s)
      txResume st i s

/-- `recv_timer` up to `done`. -/
def dispatch (st : Station) (i : MacInput) (p : MacPacket) (s : Mac80211) : Option Mac80211 :=
  if s.txActive = true then some s
  else if s.rxState = .coll then setNav (usec st.eifs) s
  else if p.error = true then setNav (usec st.eifs) s
  else do
    let s ← (if p.ra ≠ st.index then setNav p.duration s else some s)
    if p.ra ≠ st.index ∧ p.ra ≠ macBroadcast then some s
    -- the address of the station is not `bss_id_`
    else if p.ra = macBroadcast ∧ p.toDs = true ∧ p.fromDs = true then some s
    else match p.subtype with
      | .rts => recvRTS st i p s
      | .cts => recvCTS st i s
      | .ack => recvACK st i s
      | .data => recvDATA st i p s

def recvTimer (st : Station) (i : MacInput) (s : Mac80211) : Option Mac80211 :=
  match s.pktRx with
  | none => none
  | some p => asserting (s.rxState = .recv ∨ s.rxState = .coll) <| do
    let s ← dispatch st i p s
    rxResume st { s with pktRx := none }

end Mac80211

/-- What happens next: time passes, the upper layer sends, the first bit of a frame arrives, or a timer
expires. -/
inductive MacEvent where
  | tick (time : ℚ)
  | send (m : Msdu)
  | recv (p : MacPacket)
  | backoff
  | defer
  | nav
  | recvEnd
  | sendEnd
  | txEnd
deriving DecidableEq, Repr

namespace Mac80211

def step (st : Station) (i : MacInput) (s : Mac80211) : MacEvent → Option Mac80211
  | .tick time => some { s with clock := time }
  | .send m => send st i m s
  | .recv p => recv st p s
  | .backoff => backoffHandler st i { s with mhBackoff := .off }
  | .defer => deferHandler st i { s with mhDefer := .off }
  | .nav => navHandler st { s with mhNav := .off }
  | .recvEnd => recvTimer st i { s with mhRecv := .off }
  | .sendEnd => sendTimer st i { s with mhSend := .off }
  | .txEnd => some (txHandler { s with mhIF := .off })

def machine (st : Station) : Machine Mac80211 (MacInput × MacEvent) Unit where
  step s e := (step st e.1 s e.2).map fun s => (s, ())

/-- The plain timers. -/
def timers (s : Mac80211) : List MacTimer := [s.mhIF, s.mhNav, s.mhRecv, s.mhSend, s.mhDefer]

/-- Time does not pass the next timer, the upper layer waits for its callback, a frame lasts longer than
SIFS, and a timer expires when it is due. -/
def Enabled (st : Station) (s : Mac80211) : MacEvent → Prop
  | .tick time => s.clock ≤ time ∧ (∀ t ∈ s.timers, t.busy = true → time ≤ t.due) ∧
    (s.mhBackoff.busy = true → s.mhBackoff.paused = false → time ≤ s.mhBackoff.due)
  | .send _ => s.callback = false
  | .recv p => st.sifs < p.txtime
  | .backoff => s.mhBackoff.busy = true ∧ s.mhBackoff.paused = false ∧ s.mhBackoff.due = s.clock
  | .defer => s.mhDefer.busy = true ∧ s.mhDefer.due = s.clock
  | .nav => s.mhNav.busy = true ∧ s.mhNav.due = s.clock
  | .recvEnd => s.mhRecv.busy = true ∧ s.mhRecv.due = s.clock
  | .sendEnd => s.mhSend.busy = true ∧ s.mhSend.due = s.clock
  | .txEnd => s.mhIF.busy = true ∧ s.mhIF.due = s.clock

instance decidableEnabled (st : Station) (s : Mac80211) : ∀ e, Decidable (Enabled st s e)
  | .tick _ => inferInstanceAs (Decidable (_ ∧ _ ∧ _))
  | .send _ => inferInstanceAs (Decidable (_ = _))
  | .recv _ => inferInstanceAs (Decidable (_ < _))
  | .backoff => inferInstanceAs (Decidable (_ ∧ _ ∧ _))
  | .defer => inferInstanceAs (Decidable (_ ∧ _))
  | .nav => inferInstanceAs (Decidable (_ ∧ _))
  | .recvEnd => inferInstanceAs (Decidable (_ ∧ _))
  | .sendEnd => inferInstanceAs (Decidable (_ ∧ _))
  | .txEnd => inferInstanceAs (Decidable (_ ∧ _))

end Mac80211

end Ns2
