import Ns2.Mac.Mac80211

/-! The phases of a station and what holds in them between events. -/

namespace Ns2.Mac80211

variable {st : Station} {s s' : Mac80211} {i : MacInput}
variable {callback : Bool}

/-- With a packet to send, the backoff, the defer or the send timer is busy; and something ends the pause
of a backoff timer. -/
def Unwedged (s : Mac80211) : Prop :=
  (s.pktRTS.isSome = true ∨ s.pktTx.isSome = true →
    s.mhBackoff.busy = true ∨ s.mhDefer.busy = true ∨ s.mhSend.busy = true) ∧
  (s.mhBackoff.paused = true → s.mhRecv.busy = true ∨ s.mhSend.busy = true ∨ s.mhNav.busy = true)

/-- The deferred CTS can be sent without a negative timeout, or its being dropped leaves no packet without
the backoff timer; and a packet is not sent while the transmitter is active. -/
def Meets (st : Station) (s : Mac80211) : MacEvent → Prop
  | .defer => ∀ c ∈ s.pktCTRL, c.subtype = .cts → (s.isIdle = true → 0 ≤ ctsTimeout st c) ∧
    (s.isIdle = false → s.pktTx = none ∨ s.mhBackoff.busy = true)
  | .backoff => s.pktCTRL = none → s.pktTx.isSome = true → s.mhIF.busy = false
  | _ => True

instance decidableUnwedged (s : Mac80211) : Decidable s.Unwedged := inferInstanceAs (Decidable (_ ∧ _))

instance decidableMeets (st : Station) (s : Mac80211) : ∀ e, Decidable (Meets st s e)
  | .defer => inferInstanceAs (Decidable (∀ c ∈ s.pktCTRL, _))
  | .backoff => inferInstanceAs (Decidable (_ → _))
  | .tick _ | .send _ | .recv _ | .nav | .recvEnd | .sendEnd | .txEnd => isTrue trivial

/-- `checkPktTx` sends such a packet only after an RTS. -/
def Long (st : Station) (p : MacPacket) : Prop := ¬(p.size < st.rtsThreshold ∨ p.ra = macBroadcast)

/-- The RTS has been answered, and the packet may be sent. -/
def Cleared (st : Station) (rts data : Option MacPacket) : Prop :=
  rts = none ∧ ∃ p, data = some p ∧ Long st p

/-- The states of the transmitter: which of `mhSend_` and `mhDefer_` is busy, what `pktCTRL_` is, and
when the backoff timer may be off although there is a packet to send. -/
inductive Phase (st : Station) (tx : MacState) (send defer : Bool) (ctrl rts data : Option MacPacket)
    (backoff : Bool) : Prop
  | rest (htx : tx = .idle) (hsend : send = false) (hdefer : defer = false) (hctrl : ctrl = none)
      (hback : data.isSome → backoff = true) (hdata : ¬Cleared st rts data)
  | respond (htx : tx = .idle) (hsend : send = false) (hdefer : defer = true) (hctrl : ctrl.isSome)
      (hdata : Cleared st rts data → backoff = false ∧ ∀ c, ctrl = some c → c.subtype = .ack)
  | data (htx : tx = .idle) (hsend : send = false) (hdefer : defer = true) (hctrl : ctrl = none)
      (hback : backoff = false) (hdata : Cleared st rts data)
  | rts (htx : tx = .rts) (hsend : send = true) (hdefer : defer = false)
      (hctrl : ∀ c, ctrl = some c → c.subtype = .ack) (hback : backoff = false) (hrts : rts.isSome)
  | send (htx : tx = .send) (hsend : send = true) (hdefer : defer = false)
      (hctrl : ∀ c, ctrl = some c → c.subtype = .ack) (hback : backoff = false) (hrts : rts = none)
      (hdata : data.isSome)
  | cts (htx : tx = .cts) (hsend : send = true) (hdefer : defer = false) (hctrl : ctrl.isSome)
      (hdata : ¬Cleared st rts data)
  | ack (htx : tx = .ack) (hsend : send = true) (hdefer : defer = false) (hctrl : ctrl.isSome)
      (hdata : Cleared st rts data → backoff = false)

/-- What is in the slots. -/
structure Packets (st : Station) (ctrl rts data : Option MacPacket) (callback : Bool) : Prop where
  rts : ∀ r, rts = some r → r.subtype = .rts ∧ r.txtime = st.txtime st.rtsLen st.basicRate ∧ data.isSome
  data : ∀ p, data = some p → p.subtype = .data ∧ 0 ≤ p.txtime ∧ callback = true
  ctrl : ∀ c, ctrl = some c → (c.subtype = .cts ∨ c.subtype = .ack) ∧
    c.txtime = st.txtime st.ackLen st.basicRate

/-- The backoff timer runs only while the medium is idle. -/
structure Waits (s : Mac80211) : Prop where
  sound : s.mhBackoff.Sound s.clock
  nav : s.mhNav.busy = false → s.nav ≤ s.clock
  running : s.mhBackoff.busy = true → s.mhBackoff.paused = false → s.isIdle = true
  paused : s.mhBackoff.paused = true → s.rxState ≠ .idle ∨ s.txState ≠ .idle ∨ s.mhNav.busy = true

/-- A frame is coming in that will be read. -/
def Clean (s : Mac80211) : Prop :=
  s.mhRecv.busy = true ∧ s.rxState = .recv ∧ ∃ p, s.pktRx = some p ∧ p.error = false

/-- The timers are not late, and a station that transmits reads no frame. -/
structure Air (s : Mac80211) : Prop where
  intf : s.mhIF.busy = true → s.clock ≤ s.mhIF.due
  recv : s.mhRecv.busy = true → s.clock ≤ s.mhRecv.due
  send : s.mhSend.busy = true → s.clock ≤ s.mhSend.due
  defer : s.mhDefer.busy = true → s.clock ≤ s.mhDefer.due
  nav : s.mhNav.busy = true → s.clock ≤ s.mhNav.due
  navDue : s.mhNav.busy = true → s.mhNav.due = s.nav
  txActive : s.txActive = s.mhIF.busy
  deaf : s.txActive = true → ¬Clean s

/-- The transmission is over before `mhDefer_` starts and when `mhSend_` expires, and no frame that will be
read ends while the station defers to its data. -/
structure Paced (st : Station) (s : Mac80211) : Prop where
  defer : s.mhDefer.busy = true → s.mhDefer.stime ≤ s.clock ∧ s.mhDefer.rtime = st.sifs ∧
    (s.mhIF.busy = true → s.mhIF.due ≤ s.mhDefer.stime)
  sent : s.txState ≠ .cts → s.mhSend.busy = true → s.mhIF.busy = true → s.mhIF.due ≤ s.mhSend.due
  acked : s.txState = .ack → s.mhSend.busy = true →
    s.mhSend.due ≤ if s.mhIF.busy = true then s.mhIF.due else s.clock
  deafData : s.mhDefer.busy = true → s.pktCTRL = none → Clean s → s.mhDefer.due < s.mhRecv.due
  deafAck : s.txState = .ack → Clean s → s.mhSend.due + st.sifs < s.mhRecv.due

/-- All but the receiver, which is between two states while its timer's handler runs. -/
structure Core (st : Station) (s : Mac80211) : Prop where
  packets : Packets st s.pktCTRL s.pktRTS s.pktTx s.callback
  phase : Phase st s.txState s.mhSend.busy s.mhDefer.busy s.pktCTRL s.pktRTS s.pktTx s.mhBackoff.busy
  waits : Waits s
  air : Air s
  paced : Paced st s

inductive Receiver (s : Mac80211) : Prop
  | idle (hrx : s.rxState = .idle) (hrecv : s.mhRecv.busy = false) (hpkt : s.pktRx = none)
  | recv (hrx : s.rxState = .recv ∨ s.rxState = .coll) (hrecv : s.mhRecv.busy = true)
      (hpkt : s.pktRx.isSome = true)

/-- What holds between two events. -/
structure Inv (st : Station) (s : Mac80211) : Prop extends Core st s where
  receiver : Receiver s

/-- The receiver is left alone. -/
structure SameRx (s s' : Mac80211) : Prop where
  clock : s'.clock = s.clock
  rxState : s'.rxState = s.rxState
  pktRx : s'.pktRx = s.pktRx
  mhRecv : s'.mhRecv = s.mhRecv

theorem SameRx.refl (s : Mac80211) : SameRx s s := ⟨rfl, rfl, rfl, rfl⟩

theorem SameRx.trans {a b c : Mac80211} (h₁ : SameRx a b) (h₂ : SameRx b c) : SameRx a c :=
  ⟨h₂.clock.trans h₁.clock, h₂.rxState.trans h₁.rxState, h₂.pktRx.trans h₁.pktRx,
    h₂.mhRecv.trans h₁.mhRecv⟩

theorem Packets.dropOwn {ctrl rts data : Option MacPacket} (h : Packets st ctrl rts data callback) :
    Packets st ctrl none none callback :=
  ⟨fun _ hr => (by cases hr), fun _ hd => (by cases hd), h.ctrl⟩

theorem Packets.dropRTS {ctrl rts data : Option MacPacket} (h : Packets st ctrl rts data callback) :
    Packets st ctrl none data callback :=
  ⟨fun _ hr => (by cases hr), h.data, h.ctrl⟩

theorem Packets.dropCTRL {ctrl rts data : Option MacPacket} (h : Packets st ctrl rts data callback) :
    Packets st none rts data callback :=
  ⟨h.rts, h.data, fun _ hc => (by cases hc)⟩

theorem SameRx.receiver (h : SameRx s s') (hr : Receiver s) : Receiver s' := by
  cases hr with
  | idle hrx hrecv hpkt =>
    exact .idle (h.rxState.trans hrx) (h.mhRecv ▸ hrecv) (h.pktRx.trans hpkt)
  | recv hrx hrecv hpkt =>
    exact .recv (h.rxState ▸ hrx) (h.mhRecv ▸ hrecv) (h.pktRx ▸ hpkt)

namespace Phase

variable {tx : MacState} {send defer backoff : Bool} {ctrl rts data : Option MacPacket}

section

variable (h : Phase st tx send defer ctrl rts data backoff)
include h

theorem of_idle (htx : tx = .idle) : send = false := by
  subst htx
  cases h with
  | rest _ hsend => exact hsend
  | respond _ hsend => exact hsend
  | data _ hsend => exact hsend
  | rts htx | send htx | cts htx | ack htx => cases htx

theorem of_send (htx : tx = .send) :
    send = true ∧ defer = false ∧ (∀ c, ctrl = some c → c.subtype = .ack) ∧ backoff = false ∧
      rts = none ∧ data.isSome = true := by
  subst htx
  cases h with
  | send _ hsend hdefer hctrl hback hrts hdata => exact ⟨hsend, hdefer, hctrl, hback, hrts, hdata⟩
  | rest htx | respond htx | data htx | rts htx | cts htx | ack htx => cases htx

theorem of_cts (htx : tx = .cts) :
    send = true ∧ defer = false ∧ ctrl.isSome = true ∧ ¬Cleared st rts data := by
  subst htx
  cases h with
  | cts _ hsend hdefer hctrl hdata => exact ⟨hsend, hdefer, hctrl, hdata⟩
  | rest htx | respond htx | data htx | rts htx | send htx | ack htx => cases htx

theorem not_cleared_of_rest (hsend : send = false)
    (hdefer : defer = false) : ¬Cleared st rts data := by
  subst hsend hdefer
  cases h with
  | rest _ _ _ _ _ hdata => exact hdata
  | respond _ _ hdefer | data _ _ hdefer => cases hdefer
  | rts _ hsend | send _ hsend | cts _ hsend | ack _ hsend => cases hsend

theorem ne_mgmt : tx ≠ .mgmt := by
  cases h with
  | rest htx | respond htx | data htx | rts htx | send htx | cts htx | ack htx =>
    rw [htx]
    decide

theorem queue_ack (hsend : send ≠ false)
    (hnone : ctrl = none) {c : MacPacket} (hc : ∀ c', some c = some c' → c'.subtype = .ack) :
    Phase st tx send defer (some c) rts data backoff := by
  cases h with
  | rest _ hoff | respond _ hoff | data _ hoff => exact (hsend hoff).elim
  | rts htx hsend hdefer _ hback hrts => exact .rts htx hsend hdefer hc hback hrts
  | send htx hsend hdefer _ hback hrts hdata => exact .send htx hsend hdefer hc hback hrts hdata
  | cts _ _ _ hctrl | ack _ _ _ hctrl =>
    rw [hnone] at hctrl
    cases hctrl

end

end Phase

theorem zero_le_difs (st : Station) : 0 ≤ st.difs := by
  have h₁ := st.sifs_pos
  have h₂ := st.slotTime_pos
  rw [Station.difs]
  linarith

theorem zero_le_txtime (st : Station) {rate : ℚ} (hrate : 0 < rate) (n : ℕ) : 0 ≤ st.txtime n rate := by
  have := st.plcpDataRate_pos
  rw [Station.txtime]
  positivity

theorem zero_le_basic (st : Station) (n : ℕ) : 0 ≤ st.txtime n st.basicRate :=
  zero_le_txtime st st.basicRate_pos n

theorem zero_le_maxPropagationDelay : 0 ≤ maxPropagationDelay := by
  rw [maxPropagationDelay]
  norm_num

theorem isIdle_eq_true_iff : s.isIdle = true ↔
    s.rxState = .idle ∧ s.txState = .idle ∧ s.nav ≤ s.clock := by
  rw [isIdle]
  by_cases hrx : s.rxState = .idle <;> by_cases htx : s.txState = .idle <;>
    by_cases hnav : s.nav > s.clock <;> simp [hrx, htx, hnav, not_lt.1, not_le.2]

theorem isIdle_eq_false_of_rx (h : s.rxState ≠ .idle) : s.isIdle = false :=
  Bool.eq_false_of_not_eq_true fun hidle => h (isIdle_eq_true_iff.1 hidle).1

theorem isIdle_eq_false_of_tx (h : s.txState ≠ .idle) : s.isIdle = false :=
  Bool.eq_false_of_not_eq_true fun hidle => h (isIdle_eq_true_iff.1 hidle).2.1

theorem busy_of_isIdle_eq_false (hnav : s.mhNav.busy = false → s.nav ≤ s.clock)
    (h : s.isIdle = false) : s.rxState ≠ .idle ∨ s.txState ≠ .idle ∨ s.mhNav.busy = true := by
  by_contra hnot
  push Not at hnot
  obtain ⟨hrx, htx, hbusy⟩ := hnot
  have hidle := isIdle_eq_true_iff.2 ⟨hrx, htx, hnav (Bool.eq_false_of_not_eq_true hbusy)⟩
  rw [h] at hidle
  cases hidle

theorem exists_startBackoff (st : Station) (hnav : s.mhNav.busy = false → s.nav ≤ s.clock)
    (hbusy : s.mhBackoff.busy = false) (i : MacInput) {difs : ℚ} (hdifs : 0 ≤ difs) :
    ∃ b : BackoffTimer, startBackoff st i difs s = some { s with mhBackoff := b } ∧ b.busy = true ∧
      Waits { s with mhBackoff := b } := by
  obtain ⟨b, hb, hsound, hb', hpaused⟩ :=
    BackoffTimer.exists_start st.slotTime_pos hdifs hbusy s.clock i.random s.cw s.isIdle
  refine ⟨b, ?_, hb', hsound, hnav, fun _ hrun => ?_, fun hp => ?_⟩
  · rw [startBackoff, hb]
    rfl
  · rw [hpaused] at hrun
    exact (Bool.not_eq_eq_eq_not.1 hrun)
  · rw [hpaused] at hp
    exact busy_of_isIdle_eq_false hnav (Bool.not_eq_eq_eq_not.1 hp)

theorem exists_checkBackoffTimer (st : Station) (hsound : s.mhBackoff.Sound s.clock)
    (hnav : s.mhNav.busy = false → s.nav ≤ s.clock) :
    ∃ b : BackoffTimer, checkBackoffTimer st s = some { s with mhBackoff := b } ∧
      b.busy = s.mhBackoff.busy ∧ Waits { s with mhBackoff := b } := by
  rw [checkBackoffTimer]
  cases hidle : s.isIdle with
  | true =>
    have hidle' : ∀ b, ({ s with mhBackoff := b } : Mac80211).isIdle = true := fun b => hidle
    by_cases hpaused : s.mhBackoff.paused = true
    · obtain ⟨b, hb, hsound', hbusy, hrun⟩ := hsound.exists_resume (zero_le_difs st) hpaused
      rw [if_pos ⟨rfl, hpaused⟩, hb]
      refine ⟨b, rfl, hbusy.trans (hsound.busy hpaused).symm, hsound', hnav, fun _ _ => hidle' b,
        fun hp => ?_⟩
      rw [hrun] at hp
      cases hp
    · rw [if_neg fun h => hpaused h.2]
      exact ⟨_, rfl, rfl, hsound, hnav, fun _ _ => hidle, fun hp => (hpaused hp).elim⟩
  | false =>
    have hbusy := busy_of_isIdle_eq_false hnav hidle
    rw [if_neg fun h => Bool.false_ne_true h.1]
    rw [Option.bind_eq_bind, Option.bind_some]
    by_cases hrun : s.mhBackoff.busy = true ∧ s.mhBackoff.paused = false
    · obtain ⟨b, hb, hsound', hb', hpaused⟩ := hsound.exists_pause st.slotTime_pos hrun.1 hrun.2
      rw [if_pos ⟨rfl, hrun⟩, hb]
      refine ⟨b, rfl, hb'.trans hrun.1.symm, hsound', hnav, fun _ hr => ?_, fun _ => hbusy⟩
      rw [hpaused] at hr
      cases hr
    · rw [if_neg fun h => hrun h.2]
      exact ⟨_, rfl, rfl, hsound, hnav, fun hb hr => (hrun ⟨hb, hr⟩).elim, fun _ => hbusy⟩

end Ns2.Mac80211
