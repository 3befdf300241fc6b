import Ns2.Mac.MacResume

/-! The expiry of the backoff and of the defer timer. -/

namespace Ns2.Mac80211

open Option Bool

variable {st : Station} {s : Mac80211}
variable {p c : MacPacket} {timeout : ℚ}

theorem Receiver.exists_markMissed (h : Receiver s) :
    ∃ q, markMissed s = some { s with pktRx := q } ∧ Receiver { s with pktRx := q } ∧
      ¬Clean { s with pktRx := q } := by
  rw [markMissed]
  cases h with
  | idle hrx hrecv hpkt =>
    rw [if_neg (not_not_intro hrx)]
    exact ⟨s.pktRx, rfl, .idle hrx hrecv hpkt, fun hc => absurd (hrecv.symm.trans hc.1) false_ne_true⟩
  | recv hrx hrecv hpkt =>
    obtain ⟨p, hp⟩ := isSome_iff_exists.1 hpkt
    have hne : s.rxState ≠ .idle := by
      rcases hrx with hrx | hrx <;> rw [hrx] <;> decide
    rw [if_pos hne, hp]
    refine ⟨some { p with error := true }, rfl, .recv hrx hrecv rfl, ?_⟩
    rintro ⟨-, -, q, hq, herr⟩
    cases hq
    cases herr

theorem transmit_eq_none (h : s.mhIF.busy = true ∨ timeout < 0) : transmit p timeout s = none := by
  have hmark : ∀ s' : Mac80211, markMissed { s with txActive := true } = some s' →
      s'.mhIF = s.mhIF := by
    intro s' hs'
    rw [markMissed] at hs'
    split_ifs at hs'
    · split at hs'
      · cases hs'
      · cases hs'
        rfl
    · cases hs'
      rfl
  rw [transmit, bind_eq_bind, bind_eq_none_iff]
  intro s' hs'
  rw [bind_eq_bind, bind_eq_none_iff]
  intro send hsend
  rcases h with hbusy | htime
  · rw [hmark s' hs', MacTimer.start_eq_none (Or.inl hbusy)]
    rfl
  · rw [MacTimer.start_eq_none (Or.inr htime)] at hsend
    cases hsend

theorem sendNow_eq_none {tx : MacState} (hsound : s.mhBackoff.Sound s.clock)
    (hnav : s.mhNav.busy = false → s.nav ≤ s.clock) (h : s.mhIF.busy = true ∨ timeout < 0) :
    sendNow st tx p timeout s = none := by
  obtain ⟨b, hb, -, -⟩ := exists_setTxState st hsound hnav tx
  rw [sendNow, hb]
  change (transmit p timeout _).bind _ = none
  rw [transmit_eq_none (s := { s with
    txState := tx
    mhBackoff := b }) h]
  rfl

/-- The states in which a transmission can begin. -/
structure Silent (st : Station) (s : Mac80211) : Prop where
  packets : Packets st s.pktCTRL s.pktRTS s.pktTx s.callback
  waits : Waits s
  air : Air s
  receiver : Receiver s
  send : s.mhSend.busy = false
  defer : s.mhDefer.busy = false

theorem Silent.exists_sendNow (h : Silent st s) (hintf : s.mhIF.busy = false) {tx : MacState}
    (htime : 0 ≤ timeout) (hair : 0 ≤ p.txtime) (hsent : tx ≠ .cts → p.txtime ≤ timeout)
    (hacked : tx = .ack → timeout ≤ p.txtime)
    (hphase : Phase st tx true false s.pktCTRL s.pktRTS s.pktTx s.mhBackoff.busy) :
    ∃ s', sendNow st tx p timeout s = some (true, s') ∧ Inv st s' := by
  obtain ⟨b, hb, hbusy, hw⟩ := exists_setTxState st h.waits.sound h.waits.nav tx
  have hrx : SameRx s { s with
      txState := tx
      mhBackoff := b
      txActive := true } := ⟨rfl, rfl, rfl, rfl⟩
  obtain ⟨q, hq, hreceiver, hdirty⟩ := (hrx.receiver h.receiver).exists_markMissed
  have heq : sendNow st tx p timeout s = some (true, { s with
      txState := tx
      mhBackoff := b
      txActive := true
      pktRx := q
      mhSend := ⟨true, s.clock, timeout⟩
      mhIF := ⟨true, s.clock, p.txtime⟩ }) := by
    rw [sendNow, hb]
    change (transmit p timeout _).bind _ = _
    rw [transmit, hq]
    change ((s.mhSend.start s.clock timeout).bind _).bind _ = _
    rw [MacTimer.start_eq h.send htime]
    change ((s.mhIF.start s.clock p.txtime).bind _).bind _ = _
    rw [MacTimer.start_eq hintf hair]
    rfl
  have hoff : ∀ {P : Prop}, s.mhDefer.busy = true → P := fun hbusy =>
    absurd (h.defer.symm.trans hbusy) false_ne_true
  rw [← hbusy] at hphase
  rw [← h.defer] at hphase
  refine ⟨_, heq, ⟨h.packets, hphase, ⟨hw.sound, hw.nav, hw.running, hw.paused⟩, ?_, ?_⟩, ?_⟩
  · exact ⟨fun _ => le_add_of_nonneg_right hair, h.air.recv, fun _ => le_add_of_nonneg_right htime,
      h.air.defer, h.air.nav, h.air.navDue, rfl, fun _ hc => hdirty hc⟩
  · exact ⟨hoff, fun hcts _ _ => add_le_add_right (hsent hcts) s.clock,
      fun hack _ => add_le_add_right (hacked hack) s.clock, hoff, fun _ hc => (hdirty hc).elim⟩
  · cases hreceiver with
    | idle hrx hrecv hpkt => exact .idle hrx hrecv hpkt
    | recv hrx hrecv hpkt => exact .recv hrx hrecv hpkt

theorem checkPktRTS_some (i : MacInput) {r : MacPacket} (hr : s.pktRTS = some r)
    (hsub : r.subtype = .rts) (hoff : s.mhBackoff.busy = false) (hidle : s.isIdle = true) :
    checkPktRTS st i s = sendNow st .rts r (st.txtime st.rtsLen st.basicRate + maxPropagationDelay
      + st.sifs + st.txtime st.ctsLen st.basicRate + maxPropagationDelay) s := by
  rw [checkPktRTS, asserting_pos hoff, hr]
  dsimp only
  rw [hsub]
  dsimp only
  rw [hidle, if_neg (by decide)]

theorem checkPktRTS_none (i : MacInput) (hr : s.pktRTS = none) (hoff : s.mhBackoff.busy = false) :
    checkPktRTS st i s = some (false, s) := by
  rw [checkPktRTS, asserting_pos hoff, hr]

theorem checkPktTx_some (i : MacInput) (hp : s.pktTx = some p) (hsub : p.subtype = .data)
    (hoff : s.mhBackoff.busy = false) (hidle : s.isIdle = true) :
    checkPktTx st i s = sendNow st .send p (if p.ra ≠ macBroadcast then p.txtime + maxPropagationDelay
      + st.sifs + st.txtime st.ackLen st.basicRate + maxPropagationDelay else p.txtime) s := by
  rw [checkPktTx, asserting_pos hoff, hp]
  dsimp only
  rw [hsub]
  dsimp only
  rw [hidle, if_neg (by decide)]

theorem checkPktTx_none (i : MacInput) (hp : s.pktTx = none) (hoff : s.mhBackoff.busy = false) :
    checkPktTx st i s = some (false, s) := by
  rw [checkPktTx, asserting_pos hoff, hp]

theorem Silent.exists_sendRTSNow (h : Silent st s) {r : MacPacket} (hr : s.pktRTS = some r)
    (hoff : s.mhBackoff.busy = false) (hctrl : s.pktCTRL = none) (hintf : s.mhIF.busy = false) :
    ∃ s', sendNow st .rts r (st.txtime st.rtsLen st.basicRate + maxPropagationDelay + st.sifs
      + st.txtime st.ctsLen st.basicRate + maxPropagationDelay) s = some (true, s') ∧ Inv st s' := by
  obtain ⟨-, htxtime, -⟩ := h.packets.rts r hr
  have hprop := zero_le_maxPropagationDelay
  have hcts := zero_le_basic st st.ctsLen
  have hrts := zero_le_basic st st.rtsLen
  have hsifs := st.sifs_pos
  refine h.exists_sendNow hintf (by linarith) (htxtime ▸ hrts) (fun _ => by linarith) (fun hf => (by cases hf)) ?_
  rw [hctrl, hr, hoff]
  exact .rts rfl rfl rfl (fun c hc => by cases hc) rfl rfl

theorem Silent.exists_sendDataNow (h : Silent st s) (hp : s.pktTx = some p) (hrts : s.pktRTS = none)
    (hoff : s.mhBackoff.busy = false) (hctrl : s.pktCTRL = none) (hintf : s.mhIF.busy = false) :
    ∃ s', sendNow st .send p (if p.ra ≠ macBroadcast then p.txtime + maxPropagationDelay + st.sifs
      + st.txtime st.ackLen st.basicRate + maxPropagationDelay else p.txtime) s = some (true, s') ∧
      Inv st s' := by
  obtain ⟨-, htxtime, -⟩ := h.packets.data p hp
  have htimeout : p.txtime ≤ if p.ra ≠ macBroadcast then p.txtime + maxPropagationDelay
      + st.sifs + st.txtime st.ackLen st.basicRate + maxPropagationDelay else p.txtime := by
    have hprop := zero_le_maxPropagationDelay
    have hack := zero_le_basic st st.ackLen
    have hsifs := st.sifs_pos
    split_ifs <;> linarith
  refine h.exists_sendNow hintf (htxtime.trans htimeout) htxtime (fun _ => htimeout) (fun hf => (by cases hf)) ?_
  rw [hctrl, hp, hoff, hrts]
  exact .send rfl rfl rfl (fun c hc => by cases hc) rfl rfl rfl

/-- The medium is busy when the data can be sent: an RTS is made, and the backoff timer starts. -/
theorem Silent.exists_checkPktTx_busy (h : Silent st s) (i : MacInput) (hp : s.pktTx = some p)
    (hrts : s.pktRTS = none) (hoff : s.mhBackoff.busy = false) (hctrl : s.pktCTRL = none)
    (htx : s.txState = .idle) (hidle : s.isIdle = false) :
    ∃ s', checkPktTx st i s = some (true, s') ∧ Inv st s' := by
  obtain ⟨r, hr, hpk, hlong⟩ := exists_sendRTS h.packets hp hrts
  obtain ⟨b, hb, hbusy, hw⟩ := exists_startBackoff st (s := incCw st { s with pktRTS := r })
    h.waits.nav hoff i le_rfl
  rw [checkPktTx, asserting_pos hoff, hp]
  dsimp only
  rw [(h.packets.data p hp).1]
  dsimp only
  rw [hidle, if_pos rfl, hr]
  change ∃ s', ((startBackoff st i 0 (incCw st { s with pktRTS := r })).bind _) = _ ∧ _
  rw [hb]
  refine ⟨_, rfl, ⟨hpk, .rest htx h.send h.defer hctrl (fun _ => hbusy) hlong, hw,
    ⟨h.air.intf, h.air.recv, h.air.send, h.air.defer, h.air.nav, h.air.navDue, h.air.txActive, h.air.deaf⟩,
    .of_rest h.defer h.send htx⟩, ?_⟩
  exact SameRx.receiver (s := s) ⟨rfl, rfl, rfl, rfl⟩ h.receiver

theorem Silent.exists_sendOwn (h : Silent st s) (i : MacInput) (hoff : s.mhBackoff.busy = false)
    (hctrl : s.pktCTRL = none) (htx : s.txState = .idle) (hintf : s.pktTx.isSome → s.mhIF.busy = false)
    (hidle : s.isIdle = true ∨ Cleared st s.pktRTS s.pktTx) :
    ∃ s', sendOwn st i s = some s' ∧ Inv st s' := by
  rw [sendOwn]
  cases hr : s.pktRTS with
  | some r =>
    obtain ⟨hsub, -, hdata⟩ := h.packets.rts r hr
    have hidle' : s.isIdle = true := hidle.resolve_right (hr ▸ not_cleared_of_rts)
    obtain ⟨s', hs', hinv⟩ := h.exists_sendRTSNow hr hoff hctrl (hintf hdata)
    rw [checkPktRTS_some i hr hsub hoff hidle', hs']
    exact ⟨s', rfl, hinv⟩
  | none =>
    rw [checkPktRTS_none i hr hoff]
    change ∃ s', (checkPktTx st i s).map _ = _ ∧ _
    cases hp : s.pktTx with
    | none =>
      rw [checkPktTx_none i hp hoff]
      refine ⟨s, rfl, ⟨h.packets, .rest htx h.send h.defer hctrl (fun hs => ?_) ?_, h.waits, h.air,
        .of_rest h.defer h.send htx⟩, h.receiver⟩
      · rw [hp] at hs
        cases hs
      · rw [hp]
        exact not_cleared_none
    | some p =>
      cases hidle' : s.isIdle with
      | true =>
        obtain ⟨s', hs', hinv⟩ := h.exists_sendDataNow hp hr hoff hctrl (hintf (by rw [hp]; rfl))
        rw [checkPktTx_some i hp (h.packets.data p hp).1 hoff hidle', hs']
        exact ⟨s', rfl, hinv⟩
      | false =>
        obtain ⟨s', hs', hinv⟩ := h.exists_checkPktTx_busy i hp hr hoff hctrl htx hidle'
        rw [hs']
        exact ⟨s', rfl, hinv⟩

theorem Silent.sendOwn_eq_none (h : Silent st s) (i : MacInput) (hoff : s.mhBackoff.busy = false)
    (hdata : s.pktTx.isSome = true) (hidle : s.isIdle = true) (hintf : s.mhIF.busy = true) :
    sendOwn st i s = none := by
  rw [sendOwn]
  cases hr : s.pktRTS with
  | some r =>
    rw [checkPktRTS_some i hr (h.packets.rts r hr).1 hoff hidle,
      sendNow_eq_none h.waits.sound h.waits.nav (Or.inl hintf)]
    rfl
  | none =>
    obtain ⟨p, hp⟩ := isSome_iff_exists.1 hdata
    rw [checkPktRTS_none i hr hoff]
    change (checkPktTx st i s).map _ = _
    rw [checkPktTx_some i hp (h.packets.data p hp).1 hoff hidle,
      sendNow_eq_none h.waits.sound h.waits.nav (Or.inl hintf)]
    rfl

/-- When the backoff timer expires, the station has nothing to answer, or it defers. -/
theorem Inv.backoff_cases (h : Inv st s) (he : Enabled st s .backoff) :
    s.isIdle = true ∧ (s.pktCTRL = none ∧ Silent st { s with mhBackoff := .off } ∨
      s.pktCTRL.isSome = true ∧ s.mhDefer.busy = true ∧ Inv st { s with mhBackoff := .off }) := by
  obtain ⟨hbusy, hrun, -⟩ := he
  have hidle := h.waits.running hbusy hrun
  have htx := (isIdle_eq_true_iff.1 hidle).2.1
  have hwaits : Waits { s with mhBackoff := .off } :=
    ⟨BackoffTimer.sound_off _, h.waits.nav, fun hf => (by cases hf), fun hf => (by cases hf)⟩
  have hair : Air { s with mhBackoff := .off } :=
    ⟨h.air.intf, h.air.recv, h.air.send, h.air.defer, h.air.nav, h.air.navDue, h.air.txActive, h.air.deaf⟩
  have hreceiver : Receiver { s with mhBackoff := .off } :=
    SameRx.receiver (s := s) ⟨rfl, rfl, rfl, rfl⟩ h.receiver
  refine ⟨hidle, ?_⟩
  cases h.phase with
  | rest _ hsend hdefer hctrl =>
    exact Or.inl ⟨hctrl, h.packets, hwaits, hair, hreceiver, hsend, hdefer⟩
  | respond _ hsend hdefer hctrl hdata =>
    exact Or.inr ⟨hctrl, hdefer, ⟨h.packets,
      .respond htx hsend hdefer hctrl fun hc => ⟨rfl, (hdata hc).2⟩, hwaits, hair,
      ⟨h.paced.defer, h.paced.sent, h.paced.acked, h.paced.deafData, h.paced.deafAck⟩⟩, hreceiver⟩
  | data _ _ _ _ hback => exact absurd (hback.symm.trans hbusy) false_ne_true
  | rts htx' | send htx' | cts htx' | ack htx' => exact absurd (htx.symm.trans htx') (by decide)

theorem Inv.exists_backoffHandler (h : Inv st s) (i : MacInput) (he : Enabled st s .backoff)
    (hm : Meets st s .backoff) :
    ∃ s', backoffHandler st i { s with mhBackoff := .off } = some s' ∧ Inv st s' := by
  obtain ⟨hidle, ⟨hctrl, hsilent⟩ | ⟨hctrl, hdefer, hinv⟩⟩ := h.backoff_cases he
  · rw [backoffHandler, if_neg (by rw [hctrl]; exact false_ne_true)]
    exact hsilent.exists_sendOwn i rfl hctrl (isIdle_eq_true_iff.1 hidle).2.1 (hm hctrl) (Or.inl hidle)
  · rw [backoffHandler, if_pos hctrl, asserting_pos (Or.inr hdefer)]
    exact ⟨_, rfl, hinv⟩

theorem Inv.backoffHandler_eq_none (h : Inv st s) (i : MacInput) (he : Enabled st s .backoff)
    (hm : ¬Meets st s .backoff) : backoffHandler st i { s with mhBackoff := .off } = none := by
  have hbad : s.pktCTRL = none ∧ s.pktTx.isSome = true ∧ s.mhIF.busy = true := by
    by_contra hnot
    refine hm fun hctrl hdata => ?_
    exact eq_false_of_not_eq_true fun hintf => hnot ⟨hctrl, hdata, hintf⟩
  obtain ⟨hctrl, hdata, hintf⟩ := hbad
  obtain ⟨hidle, ⟨-, hsilent⟩ | ⟨hctrl', -⟩⟩ := h.backoff_cases he
  · rw [backoffHandler, if_neg (by rw [hctrl]; exact false_ne_true)]
    exact hsilent.sendOwn_eq_none i rfl hdata hidle hintf
  · rw [hctrl] at hctrl'
    cases hctrl'

theorem Inv.intf_of_defer (h : Inv st s) (he : Enabled st s .defer) : s.mhIF.busy = false := by
  obtain ⟨hbusy, hdue⟩ := he
  obtain ⟨-, hsifs, hintf⟩ := h.paced.defer hbusy
  by_contra hon
  have hon' : s.mhIF.busy = true := eq_true_of_not_eq_false hon
  have h₁ := hintf hon'
  have h₂ := h.air.intf hon'
  have h₃ := st.sifs_pos
  rw [MacTimer.due, hsifs] at hdue
  linarith

theorem Inv.defer_cases (h : Inv st s) (he : Enabled st s .defer) :
    Silent st { s with mhDefer := .off } ∧ s.txState = .idle ∧
      ((∃ c, s.pktCTRL = some c ∧ (Cleared st s.pktRTS s.pktTx → s.mhBackoff.busy = false ∧
        c.subtype = .ack)) ∨
      s.pktCTRL = none ∧ s.mhBackoff.busy = false ∧ Cleared st s.pktRTS s.pktTx) := by
  obtain ⟨hbusy, -⟩ := he
  have hwaits : Waits { s with mhDefer := .off } :=
    ⟨h.waits.sound, h.waits.nav, h.waits.running, h.waits.paused⟩
  have hair : Air { s with mhDefer := .off } :=
    ⟨h.air.intf, h.air.recv, h.air.send, fun hf => (by cases hf), h.air.nav, h.air.navDue, h.air.txActive,
      h.air.deaf⟩
  have hreceiver : Receiver { s with mhDefer := .off } :=
    SameRx.receiver (s := s) ⟨rfl, rfl, rfl, rfl⟩ h.receiver
  have hsilent : s.mhSend.busy = false → Silent st { s with mhDefer := .off } := fun hsend =>
    ⟨h.packets, hwaits, hair, hreceiver, hsend, rfl⟩
  cases h.phase with
  | respond htx hsend _ hctrl hdata =>
    obtain ⟨c, hc⟩ := isSome_iff_exists.1 hctrl
    exact ⟨hsilent hsend, htx, Or.inl ⟨c, hc, fun hcl => ⟨(hdata hcl).1, (hdata hcl).2 c hc⟩⟩⟩
  | data htx hsend _ hctrl hback hdata => exact ⟨hsilent hsend, htx, Or.inr ⟨hctrl, hback, hdata⟩⟩
  | rest _ _ hdefer | rts _ _ hdefer | send _ _ hdefer | cts _ _ hdefer | ack _ _ hdefer =>
    exact absurd (hdefer.symm.trans hbusy) false_ne_true

theorem checkPktCTRL_none (hctrl : s.pktCTRL = none) : checkPktCTRL st s = some (false, s) := by
  rw [checkPktCTRL, hctrl]

theorem checkPktCTRL_cts (hctrl : s.pktCTRL = some c) (hsub : c.subtype = .cts)
    (htx : s.txState = .idle) : checkPktCTRL st s =
      if s.isIdle = false then some (true, { s with pktCTRL := none })
      else sendNow st .cts c (ctsTimeout st c) s := by
  rw [checkPktCTRL, hctrl]
  dsimp only
  rw [if_neg (by rw [htx]; decide), hsub]

theorem checkPktCTRL_ack (hctrl : s.pktCTRL = some c) (hsub : c.subtype = .ack)
    (htx : s.txState = .idle) :
    checkPktCTRL st s = sendNow st .ack c (st.txtime st.ackLen st.basicRate) s := by
  rw [checkPktCTRL, hctrl]
  dsimp only
  rw [if_neg (by rw [htx]; decide), hsub]

theorem Silent.exists_checkPktCTRL (h : Silent st s) (htx : s.txState = .idle)
    (hintf : s.mhIF.busy = false) (hctrl : s.pktCTRL = some c)
    (hdata : Cleared st s.pktRTS s.pktTx → s.mhBackoff.busy = false ∧ c.subtype = .ack)
    (hcts : c.subtype = .cts → (s.isIdle = true → 0 ≤ ctsTimeout st c) ∧
      (s.isIdle = false → s.pktTx = none ∨ s.mhBackoff.busy = true)) :
    ∃ s', checkPktCTRL st s = some (true, s') ∧ Inv st s' := by
  obtain ⟨hsub, htxtime⟩ := h.packets.ctrl c hctrl
  have hack := zero_le_basic st st.ackLen
  rcases hsub with hsub | hsub
  · have hlong : ¬Cleared st s.pktRTS s.pktTx := by
      intro hc
      have := (hdata hc).2
      rw [hsub] at this
      cases this
    rw [checkPktCTRL_cts hctrl hsub htx]
    cases hidle : s.isIdle with
    | false =>
      rw [if_pos rfl]
      refine ⟨_, rfl, ⟨h.packets.dropCTRL,
        .rest htx h.send h.defer rfl (fun hs => ?_) hlong,
        ⟨h.waits.sound, h.waits.nav, h.waits.running, h.waits.paused⟩,
        ⟨h.air.intf, h.air.recv, h.air.send, h.air.defer, h.air.nav, h.air.navDue, h.air.txActive,
          h.air.deaf⟩, .of_rest h.defer h.send htx⟩, SameRx.receiver (s := s) ⟨rfl, rfl, rfl, rfl⟩ h.receiver⟩
      refine ((hcts hsub).2 hidle).resolve_left fun hnone => ?_
      rw [show s.pktTx = none from hnone] at hs
      cases hs
    | true =>
      rw [if_neg (by decide)]
      refine h.exists_sendNow hintf ((hcts hsub).1 hidle) (htxtime ▸ hack) (fun hf => (hf rfl).elim)
        (fun hf => (by cases hf)) ?_
      rw [hctrl]
      exact .cts rfl rfl rfl rfl hlong
  · rw [checkPktCTRL_ack hctrl hsub htx]
    refine h.exists_sendNow hintf hack (htxtime ▸ hack) (fun _ => htxtime.le) (fun _ => htxtime.ge) ?_
    rw [hctrl]
    exact .ack rfl rfl rfl rfl fun hc => (hdata hc).1

theorem Inv.exists_deferHandler (h : Inv st s) (i : MacInput) (he : Enabled st s .defer)
    (hm : Meets st s .defer) :
    ∃ s', deferHandler st i { s with mhDefer := .off } = some s' ∧ Inv st s' := by
  have hintf := h.intf_of_defer he
  obtain ⟨hsilent, htx, ⟨c, hctrl, hdata⟩ | ⟨hctrl, hback, hdata⟩⟩ := h.defer_cases he
  · obtain ⟨s', hs', hinv⟩ := hsilent.exists_checkPktCTRL htx hintf hctrl hdata (hm c hctrl)
    rw [deferHandler, asserting_pos (Or.inl (isSome_iff_exists.2 ⟨c, hctrl⟩)), hs']
    exact ⟨s', rfl, hinv⟩
  · obtain ⟨-, p, hp, -⟩ := id hdata
    obtain ⟨s', hs', hinv⟩ :=
      hsilent.exists_sendOwn i hback hctrl htx (fun _ => hintf) (Or.inr hdata)
    rw [deferHandler, asserting_pos (Or.inr (Or.inr (isSome_iff_exists.2 ⟨p, hp⟩))),
      checkPktCTRL_none (s := { s with mhDefer := .off }) hctrl]
    change ∃ s', asserting (s.mhBackoff.busy = false) (sendOwn st i { s with mhDefer := .off }) = _ ∧ _
    rw [asserting_pos hback, hs']
    exact ⟨s', rfl, hinv⟩

theorem Inv.deferHandler_of_not_meets (h : Inv st s) (i : MacInput) (he : Enabled st s .defer)
    (hm : ¬Meets st s .defer) {s' : Mac80211}
    (hs' : deferHandler st i { s with mhDefer := .off } = some s') : ¬Unwedged s' := by
  rw [Meets] at hm
  push Not at hm
  obtain ⟨c, hctrl, hsub, hbad⟩ := hm
  obtain ⟨hsilent, htx, -⟩ := h.defer_cases he
  rw [deferHandler, asserting_pos (Or.inl (isSome_iff_exists.2 ⟨c, hctrl⟩)),
    checkPktCTRL_cts (s := { s with mhDefer := .off }) hctrl hsub htx] at hs'
  have hsame : ({ s with mhDefer := MacTimer.off } : Mac80211).isIdle = s.isIdle := rfl
  rw [hsame] at hs'
  cases hidle : s.isIdle with
  | true =>
    rw [hidle, if_neg (by decide)] at hs'
    have hneg : ctsTimeout st c < 0 := by
      by_contra hpos
      obtain ⟨hf, -⟩ := hbad fun _ => not_lt.1 hpos
      rw [hidle] at hf
      cases hf
    rw [sendNow_eq_none hsilent.waits.sound hsilent.waits.nav (Or.inr hneg)] at hs'
    cases hs'
  | false =>
    rw [if_pos hidle] at hs'
    cases hs'
    obtain ⟨-, hdata, hback⟩ := hbad fun hf => by rw [hidle] at hf; cases hf
    intro hun
    rcases hun.1 (Or.inr (ne_none_iff_isSome.1 hdata)) with hb | hb | hb
    · exact hback hb
    · cases hb
    · exact absurd (hsilent.send.symm.trans hb) false_ne_true

end Ns2.Mac80211
