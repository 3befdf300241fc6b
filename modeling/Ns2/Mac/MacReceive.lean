import Ns2.Mac.MacTransmit

/-! Frames that arrive, and frames that have been received. -/

namespace Ns2.Mac80211

open Option Bool

variable {st : Station} {s : Mac80211}

theorem Core.receive (h : Core st s) (rx : MacState) {q : Option MacPacket} {t : MacTimer}
    {b : BackoffTimer} (hb : b.busy = s.mhBackoff.busy)
    (hw : Waits { s with
      rxState := rx
      mhBackoff := b })
    (ht : t.busy = true → s.clock ≤ t.due)
    (hdeaf : Clean { s with
      rxState := rx
      mhBackoff := b
      pktRx := q
      mhRecv := t } → s.txActive = false ∧ s.clock + st.sifs < t.due) :
    Core st { s with
      rxState := rx
      mhBackoff := b
      pktRx := q
      mhRecv := t } := by
  refine ⟨h.packets, ?_, ⟨hw.sound, hw.nav, hw.running, hw.paused⟩,
    ⟨h.air.intf, ht, h.air.send, h.air.defer, h.air.nav, h.air.navDue, h.air.txActive, fun hact hc => ?_⟩,
    ⟨h.paced.defer, h.paced.sent, h.paced.acked, fun hbusy _ hc => ?_, fun hack hc => ?_⟩⟩
  · have := h.phase
    rw [← hb] at this
    exact this
  · exact absurd ((hdeaf hc).1.symm.trans hact) false_ne_true
  · obtain ⟨hle, hsifs, -⟩ := h.paced.defer hbusy
    have hlt := (hdeaf hc).2
    change s.mhDefer.stime + s.mhDefer.rtime < t.due
    rw [hsifs]
    linarith
  · obtain ⟨hact, hlt⟩ := hdeaf hc
    have hsend : s.mhSend.busy = true := by
      have htx : s.txState = .ack := hack
      cases h.phase with
      | ack _ hsend => exact hsend
      | rest htx' | respond htx' | data htx' | rts htx' | send htx' | cts htx' =>
        exact absurd (htx.symm.trans htx') (by decide)
    have hle := h.paced.acked hack hsend
    rw [if_neg (by rw [← h.air.txActive, hact]; exact false_ne_true)] at hle
    change s.mhSend.due + st.sifs < t.due
    linarith

theorem not_clean_of_recv (h : s.mhRecv.busy = false) : ¬Clean s :=
  fun hc => absurd (h.symm.trans hc.1) false_ne_true

theorem Core.recvOff (h : Core st s) : Core st { s with mhRecv := .off } :=
  h.receive s.rxState (q := s.pktRx) rfl h.waits (fun hf => (by cases hf))
    fun hc => (not_clean_of_recv rfl hc).elim

theorem Core.exists_rxResume (h : Core st s) (hrecv : s.mhRecv.busy = false) :
    ∃ s', rxResume st { s with pktRx := none } = some s' ∧ Inv st s' := by
  obtain ⟨b, hb, hbusy, hw⟩ := exists_setRxState st (s := { s with pktRx := none })
    h.waits.sound h.waits.nav .idle
  have hw' : Waits { s with
      rxState := .idle
      mhBackoff := b } := ⟨hw.sound, hw.nav, hw.running, hw.paused⟩
  rw [rxResume, asserting_pos rfl, asserting_pos hrecv, hb]
  refine ⟨_, rfl, h.receive .idle (q := none) (t := s.mhRecv) hbusy hw' h.air.recv fun hc => ?_, ?_⟩
  · exact absurd (hrecv.symm.trans hc.1) false_ne_true
  · exact .idle rfl hrecv rfl

theorem Core.exists_keepLongest (h : Core st s) (hrx : s.rxState = .coll)
    (hrecv : s.mhRecv.busy = true) (hpkt : s.pktRx.isSome = true) {p : MacPacket} (hp : 0 ≤ p.txtime) :
    ∃ s', keepLongest p s = some s' ∧ Inv st s' := by
  have hcoll : ∀ {q t}, Clean { s with
      rxState := s.rxState
      mhBackoff := s.mhBackoff
      pktRx := q
      mhRecv := t } → s.txActive = false ∧ s.clock + st.sifs < t.due := by
    intro q t hc
    have hf : s.rxState = .recv := hc.2.1
    rw [hrx] at hf
    cases hf
  rw [keepLongest, asserting_pos hpkt, asserting_pos hrecv]
  by_cases hlonger : p.txtime > s.mhRecv.expire s.clock
  · rw [if_pos hlonger, MacTimer.stop_eq hrecv]
    change ∃ s', ((MacTimer.off.start s.clock p.txtime).bind _) = _ ∧ _
    rw [MacTimer.start_eq rfl hp]
    refine ⟨_, rfl, h.receive s.rxState (q := some p) rfl h.waits (fun _ => le_add_of_nonneg_right hp) hcoll, ?_⟩
    exact .recv (Or.inr hrx) rfl rfl
  · rw [if_neg hlonger]
    exact ⟨s, rfl, h, .recv (Or.inr hrx) hrecv hpkt⟩

theorem Inv.exists_recv (h : Inv st s) {p : MacPacket} (hp : st.sifs < p.txtime) :
    ∃ s', recv st p s = some s' ∧ Inv st s' := by
  have hp' : 0 ≤ p.txtime := st.sifs_pos.le.trans hp.le
  rw [recv]
  have hmark : ∀ p', p' = (if s.txActive = true ∧ p.error = false then { p with error := true } else p) →
      p'.txtime = p.txtime ∧ (s.txActive = true → p'.error = true) := by
    rintro p' rfl
    split_ifs with hact
    · exact ⟨rfl, fun _ => rfl⟩
    · exact ⟨rfl, fun hon => eq_true_of_not_eq_false fun herr => hact ⟨hon, herr⟩⟩
  generalize (if s.txActive = true ∧ p.error = false then { p with error := true } else p) = p' at hmark
  obtain ⟨htxtime, herror⟩ := hmark p' rfl
  rw [← htxtime] at hp hp'
  cases h.receiver with
  | idle hrx hrecv hpkt =>
    obtain ⟨b, hb, hbusy, hw⟩ := exists_setRxState st h.waits.sound h.waits.nav .recv
    rw [if_pos hrx, hb]
    change ∃ s', ((s.mhRecv.start s.clock p'.txtime).bind _) = _ ∧ _
    rw [MacTimer.start_eq hrecv hp']
    refine ⟨_, rfl, h.toCore.receive .recv (q := some p') hbusy hw
      (fun _ => le_add_of_nonneg_right hp') fun hc => ⟨?_, add_lt_add_right hp s.clock⟩, ?_⟩
    · obtain ⟨-, -, q, hq, herr⟩ := hc
      cases hq
      refine eq_false_of_not_eq_true fun hact => ?_
      rw [herror hact] at herr
      cases herr
    · exact .recv (Or.inl rfl) rfl rfl
  | recv hrx hrecv hpkt =>
    have hne : s.rxState ≠ .idle := by
      rcases hrx with hrx | hrx <;> rw [hrx] <;> decide
    obtain ⟨q, hq⟩ := isSome_iff_exists.1 hpkt
    rw [if_neg hne, hq]
    dsimp only
    by_cases hcapture : q.rxPr / p'.rxPr ≥ p'.cpThresh
    · obtain ⟨nav, t, ht, hcore⟩ := h.toCore.exists_setNav hne (usec (st.eifs + p'.txtime))
      rw [if_pos hcapture, capture, ht]
      exact ⟨_, rfl, hcore, SameRx.receiver (s := s) ⟨rfl, rfl, rfl, rfl⟩ h.receiver⟩
    · rw [if_neg hcapture, collision]
      rcases hrx with hrx | hrx
      · obtain ⟨b, hb, hbusy, hw⟩ := exists_setRxState st h.waits.sound h.waits.nav .coll
        rw [hrx]
        dsimp only
        rw [hb]
        refine Core.exists_keepLongest (h.toCore.receive .coll (q := s.pktRx) (t := s.mhRecv) hbusy hw h.air.recv
          fun hc => ?_) rfl hrecv hpkt hp'
        cases hc.2.1
      · rw [hrx]
        exact h.toCore.exists_keepLongest hrx hrecv hpkt hp'

/-- The states in which a frame is read. -/
structure Reading (st : Station) (s : Mac80211) : Prop extends Core st s where
  rx : s.rxState ≠ .idle
  recv : s.mhRecv.busy = false
  intf : s.mhIF.busy = false
  free : s.pktCTRL = none → s.mhDefer.busy = false

theorem Core.exists_send (h : Core st s) (hcallback : s.callback = false) (i : MacInput) (m : Msdu) :
    ∃ s', send st i m s = some s' ∧ Core st s' ∧ SameRx s s' := by
  have hpk := h.packets
  rw [hcallback] at hpk
  obtain ⟨hrts, htx⟩ := hpk.own_none
  obtain ⟨d, r, n, b, heq, hpk', hlong, hb, hw⟩ := Mac80211.exists_send hpk h.waits i m
  refine ⟨_, heq, ⟨hpk', ?_, hw,
    ⟨h.air.intf, h.air.recv, h.air.send, h.air.defer, h.air.nav, h.air.navDue, h.air.txActive, h.air.deaf⟩,
    ⟨h.paced.defer, h.paced.sent, h.paced.acked, h.paced.deafData, h.paced.deafAck⟩⟩, ⟨rfl, rfl, rfl, rfl⟩⟩
  cases h.phase with
  | rest htx' hsend hdefer hctrl =>
    refine .rest htx' hsend hdefer hctrl (fun _ => hb.resolve_right fun hbusy => ?_) hlong
    exact absurd (hdefer.symm.trans hbusy) false_ne_true
  | respond htx' hsend hdefer hctrl =>
    exact .respond htx' hsend hdefer hctrl fun hc => (hlong hc).elim
  | data _ _ _ _ _ hdata =>
    rw [htx] at hdata
    exact (not_cleared_none hdata).elim
  | rts _ _ _ _ _ hsome =>
    rw [hrts] at hsome
    cases hsome
  | send _ _ _ _ _ _ hsome =>
    rw [htx] at hsome
    cases hsome
  | cts htx' hsend hdefer hctrl => exact .cts htx' hsend hdefer hctrl hlong
  | ack htx' hsend hdefer hctrl => exact .ack htx' hsend hdefer hctrl fun hc => (hlong hc).elim

theorem Core.exists_deliver (h : Core st s) (i : MacInput) :
    ∃ s', deliver st i s = some s' ∧ Core st s' ∧ SameRx s s' := by
  rw [deliver]
  split
  · next m _ =>
    by_cases hcallback : s.callback = true
    · rw [if_pos hcallback]
      exact ⟨s, rfl, h, SameRx.refl s⟩
    · rw [if_neg hcallback]
      exact h.exists_send (eq_false_of_not_eq_true hcallback) i m
  · exact ⟨s, rfl, h, SameRx.refl s⟩

theorem Core.exists_checkSeqno (h : Core st s) (i : MacInput) (p : MacPacket) :
    ∃ s', checkSeqno st i p s = some s' ∧ Core st s' ∧ SameRx s s' := by
  have hcache : ∀ cache, Core st { s with cache := cache } := fun cache =>
    ⟨h.packets, h.phase, ⟨h.waits.sound, h.waits.nav, h.waits.running, h.waits.paused⟩,
      ⟨h.air.intf, h.air.recv, h.air.send, h.air.defer, h.air.nav, h.air.navDue, h.air.txActive, h.air.deaf⟩,
      ⟨h.paced.defer, h.paced.sent, h.paced.acked, h.paced.deafData, h.paced.deafAck⟩⟩
  rw [checkSeqno]
  split
  · split
    · exact ⟨s, rfl, h, SameRx.refl s⟩
    · obtain ⟨s', hs', hcore, hrx⟩ :=
        (hcache (Function.update s.cache p.ta p.scontrol)).exists_deliver i
      exact ⟨s', hs', hcore, ⟨hrx.clock, hrx.rxState, hrx.pktRx, hrx.mhRecv⟩⟩
  · exact h.exists_deliver i

theorem Packets.ctrl_controlPacket {ctrl rts data : Option MacPacket} {callback : Bool}
    (h : Packets st ctrl rts data callback) (sub : MacSubtype) (hsub : sub = .cts ∨ sub = .ack)
    (ra duration : ℕ) :
    Packets st (some (controlPacket st sub ra 0 duration st.ackLen)) rts data callback :=
  ⟨h.rts, h.data, fun c hc => by cases hc; exact ⟨hsub, rfl⟩⟩

section

variable (h : Reading st s)
include h

theorem Reading.resuming (hsend : s.mhSend.busy = false)
    (hdefer : s.mhDefer.busy = false) {ctrl rts data : Option MacPacket}
    (hpk : Packets st ctrl rts data s.callback)
    (hcleared : Cleared st rts data → s.mhBackoff.busy = false ∧ ∀ c, ctrl = some c → c.subtype = .ack)
    (cw ssrc slrc : ℕ) : Resuming st { s with
      pktCTRL := ctrl
      pktRTS := rts
      pktTx := data
      cw := cw
      ssrc := ssrc
      slrc := slrc } :=
  ⟨hpk, ⟨h.waits.sound, h.waits.nav, h.waits.running, h.waits.paused⟩,
    ⟨h.air.intf, h.air.recv, h.air.send, h.air.defer, h.air.nav, h.air.navDue, h.air.txActive, h.air.deaf⟩,
    hsend, hdefer, isIdle_eq_false_of_rx h.rx,
    fun _ hbusy => absurd (h.intf.symm.trans hbusy) false_ne_true, hcleared,
    fun _ _ hc => absurd (h.recv.symm.trans hc.1) false_ne_true⟩

theorem Reading.stopSend {ctrl rts data : Option MacPacket}
    (hphase : s.mhSend.busy = true) (hdefer : s.mhDefer.busy = false)
    (hpk : Packets st ctrl rts data s.callback)
    (hcleared : Cleared st rts data → s.mhBackoff.busy = false ∧ ∀ c, ctrl = some c → c.subtype = .ack)
    (cw ssrc slrc : ℕ) : s.mhSend.stop = some .off ∧ Resuming st { s with
      mhSend := .off
      pktCTRL := ctrl
      pktRTS := rts
      pktTx := data
      cw := cw
      ssrc := ssrc
      slrc := slrc } := by
  refine ⟨MacTimer.stop_eq hphase, hpk, ⟨h.waits.sound, h.waits.nav, h.waits.running, h.waits.paused⟩,
    ⟨h.air.intf, h.air.recv, fun hf => (by cases hf), h.air.defer, h.air.nav, h.air.navDue, h.air.txActive,
      h.air.deaf⟩, rfl, hdefer, isIdle_eq_false_of_rx h.rx,
    fun _ hbusy => absurd (h.intf.symm.trans hbusy) false_ne_true, hcleared,
    fun _ _ hc => absurd (h.recv.symm.trans hc.1) false_ne_true⟩

theorem Reading.exists_recvRTS (i : MacInput) (p : MacPacket) :
    ∃ s', recvRTS st i p s = some s' ∧ Core st s' ∧ SameRx s s' := by
  rw [recvRTS]
  by_cases htx : s.txState ≠ .idle
  · rw [if_pos htx]
    exact ⟨s, rfl, h.toCore, SameRx.refl s⟩
  · have htx : s.txState = .idle := not_not.1 htx
    rw [if_neg (not_not_intro htx)]
    by_cases hctrl : s.pktCTRL.isSome = true
    · rw [if_pos hctrl]
      exact ⟨s, rfl, h.toCore, SameRx.refl s⟩
    · have hnone := not_isSome_iff_eq_none.1 hctrl
      have hdefer := h.free hnone
      have hdata : ¬Cleared st s.pktRTS s.pktTx := by
        cases h.phase with
        | rest _ _ _ _ _ hdata => exact hdata
        | respond _ _ hbusy | data _ _ hbusy => exact absurd (hdefer.symm.trans hbusy) false_ne_true
        | rts htx' | send htx' => exact absurd (htx.symm.trans htx') (by decide)
        | cts _ _ _ _ hdata => exact hdata
        | ack htx' => exact absurd (htx.symm.trans htx') (by decide)
      rw [if_neg hctrl, sendCTS, asserting_pos hnone]
      change ∃ s', (stopDefer { s with pktCTRL := some _ }).bind _ = _ ∧ _
      rw [stopDefer, if_neg (by rw [hdefer]; exact false_ne_true)]
      obtain ⟨s', hs', hcore, hrx⟩ := (h.resuming (h.phase.of_idle htx) hdefer
        (h.packets.ctrl_controlPacket .cts (Or.inl rfl) p.ta
          (usec (sec p.duration - st.sifs - st.txtime st.ctsLen st.basicRate)))
        (fun hc => (hdata hc).elim) s.cw s.ssrc s.slrc).exists_txResume i
      exact ⟨s', hs', hcore, ⟨hrx.clock, hrx.rxState, hrx.pktRx, hrx.mhRecv⟩⟩

theorem Reading.exists_recvCTS (i : MacInput) :
    ∃ s', recvCTS st i s = some s' ∧ Core st s' ∧ SameRx s s' := by
  rw [recvCTS]
  by_cases htx : s.txState ≠ .rts
  · rw [if_pos htx]
    exact ⟨s, rfl, h.toCore, SameRx.refl s⟩
  · have htx : s.txState = .rts := not_not.1 htx
    rw [if_neg (not_not_intro htx)]
    cases h.phase with
    | rts _ hsend hdefer hctrl hback hrts =>
      obtain ⟨r, hr⟩ := isSome_iff_exists.1 hrts
      rw [asserting_pos hrts, asserting_pos (h.packets.rts r hr).2.2]
      obtain ⟨hstop, hres⟩ := h.stopSend hsend hdefer h.packets.dropRTS (fun _ => ⟨hback, hctrl⟩) s.cw 0 s.slrc
      obtain ⟨s', hs', hcore, hrx⟩ := hres.exists_txResume i
      rw [Mac80211.stopSend, hstop]
      exact ⟨s', hs', hcore, ⟨hrx.clock, hrx.rxState, hrx.pktRx, hrx.mhRecv⟩⟩
    | rest htx' | respond htx' | data htx' | send htx' | cts htx' | ack htx' =>
      exact absurd (htx.symm.trans htx') (by decide)

theorem Reading.exists_recvDATA (i : MacInput) (p : MacPacket) :
    ∃ s', recvDATA st i p s = some s' ∧ Core st s' ∧ SameRx s s' := by
  have hstay : ∃ s', some s = some s' ∧ Core st s' ∧ SameRx s s' := ⟨s, rfl, h.toCore, SameRx.refl s⟩
  have hdone : ∀ {s₁ : Mac80211}, Core st s₁ → SameRx s s₁ →
      ∃ s', checkSeqno st i p s₁ = some s' ∧ Core st s' ∧ SameRx s s' := by
    intro s₁ hcore hrx
    obtain ⟨s', hs', hcore', hrx'⟩ := hcore.exists_checkSeqno i p
    exact ⟨s', hs', hcore', hrx.trans hrx'⟩
  have hack := h.packets.ctrl_controlPacket .ack (Or.inr rfl) p.ta 0
  have hsub : ∀ c, some (controlPacket st .ack p.ta 0 0 st.ackLen) = some c → c.subtype = .ack := by
    intro c hc
    cases hc
    rfl
  rw [recvDATA]
  by_cases hcast : p.ra ≠ macBroadcast
  · rw [if_pos hcast]
    by_cases hsize : p.size ≥ st.rtsThreshold
    · rw [if_pos hsize]
      by_cases htx : s.txState = .cts
      · obtain ⟨hsend, hdefer, hctrl, hdata⟩ := h.phase.of_cts htx
        obtain ⟨hstop, hres⟩ := h.stopSend hsend hdefer hack (fun hc => (hdata hc).elim) s.cw s.ssrc s.slrc
        obtain ⟨s₁, hs₁, hcore, hrx⟩ := hres.exists_txResume i
        rw [if_pos htx, asserting_pos hctrl, Mac80211.stopSend, hstop]
        simp only [bind_eq_bind, bind_some]
        rw [sendACK, asserting_pos rfl]
        simp only [bind_some]
        rw [hs₁]
        exact hdone hcore ⟨hrx.clock, hrx.rxState, hrx.pktRx, hrx.mhRecv⟩
      · rw [if_neg htx]
        exact hstay
    · rw [if_neg hsize]
      by_cases hctrl : s.pktCTRL.isSome = true
      · rw [if_pos hctrl]
        exact hstay
      · have hnone := not_isSome_iff_eq_none.1 hctrl
        rw [if_neg hctrl, sendACK, asserting_pos hnone]
        change ∃ s', ((if s.mhSend.busy = false then _ else _) : Option Mac80211).bind _ = _ ∧ _
        by_cases hsend : s.mhSend.busy = false
        · have hdefer := h.free hnone
          have hdata : ¬Cleared st s.pktRTS s.pktTx := h.phase.not_cleared_of_rest hsend hdefer
          obtain ⟨s₁, hs₁, hcore, hrx⟩ := (h.resuming hsend hdefer hack (fun hc => (hdata hc).elim) s.cw
            s.ssrc s.slrc).exists_txResume i
          rw [if_pos hsend]
          change ∃ s', (txResume st i _).bind _ = _ ∧ _
          rw [hs₁]
          exact hdone hcore ⟨hrx.clock, hrx.rxState, hrx.pktRx, hrx.mhRecv⟩
        · -- the ACK is queued behind the transmission
          rw [if_neg hsend]
          refine hdone ⟨hack, h.phase.queue_ack hsend hnone hsub,
            ⟨h.waits.sound, h.waits.nav, h.waits.running, h.waits.paused⟩,
            ⟨h.air.intf, h.air.recv, h.air.send, h.air.defer, h.air.nav, h.air.navDue, h.air.txActive,
              h.air.deaf⟩,
            ⟨h.paced.defer, h.paced.sent, h.paced.acked, fun _ hf => (by cases hf), h.paced.deafAck⟩⟩
            ⟨rfl, rfl, rfl, rfl⟩
  · rw [if_neg hcast]
    exact hdone h.toCore (SameRx.refl s)

theorem Reading.exists_recvACK (i : MacInput) :
    ∃ s', recvACK st i s = some s' ∧ Core st s' ∧ SameRx s s' := by
  rw [recvACK, if_neg h.phase.ne_mgmt]
  by_cases htx : s.txState ≠ .send
  · rw [if_pos htx]
    exact ⟨s, rfl, h.toCore, SameRx.refl s⟩
  · obtain ⟨hsend, hdefer, hctrl, hback, hrts, hdata⟩ := h.phase.of_send (not_not.1 htx)
    obtain ⟨p, hp⟩ := isSome_iff_exists.1 hdata
    have hpk : Packets st s.pktCTRL s.pktRTS none s.callback := by
      rw [hrts]
      exact h.packets.dropOwn
    obtain ⟨n, m, hcount⟩ : ∃ n m, (if p.size ≤ st.rtsThreshold then { s with
        mhSend := MacTimer.off
        ssrc := 0 } else { s with
        mhSend := MacTimer.off
        slrc := 0 }) = { s with
        mhSend := MacTimer.off
        ssrc := n
        slrc := m } := by
      split_ifs
      · exact ⟨0, s.slrc, rfl⟩
      · exact ⟨s.ssrc, 0, rfl⟩
    obtain ⟨hstop, hres⟩ := h.stopSend hsend hdefer hpk (fun hc => (not_cleared_none hc).elim) st.cwMin n m
    obtain ⟨b, hb, hbusy, hw⟩ := exists_startBackoff st hres.waits.nav hback i le_rfl
    obtain ⟨s', hs', hcore, hrx⟩ := (hres.withBackoff hw not_cleared_none).exists_txResume i
    rw [if_neg htx, hp]
    dsimp only
    rw [Mac80211.stopSend, hstop]
    simp only [bind_eq_bind, bind_some]
    rw [hcount]
    refine ⟨s', ?_, hcore, ⟨hrx.clock, hrx.rxState, hrx.pktRx, hrx.mhRecv⟩⟩
    change (asserting (s.mhBackoff.busy = false) (startBackoff st i 0 { s with
      mhSend := MacTimer.off
      ssrc := n
      slrc := m
      cw := st.cwMin
      pktTx := none })).bind _ = _
    rw [asserting_pos hback, hb]
    exact hs'

end

/-- `free` holds because no frame that is read ends while the station defers to its data. -/
theorem Core.exists_dispatch (h : Core st s) (hrx : s.rxState = .recv ∨ s.rxState = .coll)
    (hrecv : s.mhRecv.busy = false) (i : MacInput) {p : MacPacket}
    (hfree : s.rxState = .recv → p.error = false → s.pktCTRL = none → s.mhDefer.busy = false) :
    ∃ s', dispatch st i p s = some s' ∧ Core st s' ∧ SameRx s s' := by
  have hne : s.rxState ≠ .idle := by
    rcases hrx with hrx | hrx <;> rw [hrx] <;> decide
  have heifs : ∃ s', setNav (usec st.eifs) s = some s' ∧ Core st s' ∧ SameRx s s' := by
    obtain ⟨nav, t, ht, hcore⟩ := h.exists_setNav hne (usec st.eifs)
    exact ⟨_, ht, hcore, ⟨rfl, rfl, rfl, rfl⟩⟩
  rw [dispatch]
  by_cases hact : s.txActive = true
  · rw [if_pos hact]
    exact ⟨s, rfl, h, SameRx.refl s⟩
  · rw [if_neg hact]
    by_cases hcoll : s.rxState = .coll
    · rw [if_pos hcoll]
      exact heifs
    · rw [if_neg hcoll]
      by_cases herror : p.error = true
      · rw [if_pos herror]
        exact heifs
      · rw [if_neg herror]
        have hintf : s.mhIF.busy = false :=
          h.air.txActive.symm.trans (eq_false_of_not_eq_true hact)
        have hread : Reading st s := ⟨h, hne, hrecv, hintf,
          hfree (hrx.resolve_right hcoll) (eq_false_of_not_eq_true herror)⟩
        obtain ⟨s₁, hs₁, hread₁, hrx₁⟩ : ∃ s₁, (if p.ra ≠ st.index then setNav p.duration s else some s) =
            some s₁ ∧ Reading st s₁ ∧ SameRx s s₁ := by
          by_cases hra : p.ra ≠ st.index
          · obtain ⟨nav, t, ht, hcore⟩ := h.exists_setNav hne p.duration
            rw [if_pos hra]
            exact ⟨_, ht, ⟨hcore, hne, hrecv, hintf, hread.free⟩, ⟨rfl, rfl, rfl, rfl⟩⟩
          · rw [if_neg hra]
            exact ⟨s, rfl, hread, SameRx.refl s⟩
        have hstay : ∃ s', some s₁ = some s' ∧ Core st s' ∧ SameRx s s' := ⟨s₁, rfl, hread₁.toCore, hrx₁⟩
        have hthen : ∀ {r : Option Mac80211}, (∃ s', r = some s' ∧ Core st s' ∧ SameRx s₁ s') →
            ∃ s', r = some s' ∧ Core st s' ∧ SameRx s s' := by
          rintro r ⟨s', hs', hcore, hrx'⟩
          exact ⟨s', hs', hcore, hrx₁.trans hrx'⟩
        rw [hs₁]
        simp only [bind_eq_bind, bind_some]
        split
        · exact hstay
        · split
          · exact hstay
          · cases p.subtype with
            | rts => exact hthen (hread₁.exists_recvRTS i p)
            | cts => exact hthen (hread₁.exists_recvCTS i)
            | ack => exact hthen (hread₁.exists_recvACK i)
            | data => exact hthen (hread₁.exists_recvDATA i p)

theorem Inv.exists_recvTimer (h : Inv st s) (i : MacInput) (he : Enabled st s .recvEnd) :
    ∃ s', recvTimer st i { s with mhRecv := .off } = some s' ∧ Inv st s' := by
  obtain ⟨hbusy, hdue⟩ := he
  cases h.receiver with
  | idle _ hrecv => exact absurd (hrecv.symm.trans hbusy) false_ne_true
  | recv hrx _ hpkt =>
    obtain ⟨p, hp⟩ := isSome_iff_exists.1 hpkt
    have hfree : s.rxState = .recv → p.error = false → s.pktCTRL = none → s.mhDefer.busy = false := by
      intro hrecv herror hctrl
      refine eq_false_of_not_eq_true fun hdefer => ?_
      have hlt := h.paced.deafData hdefer hctrl ⟨hbusy, hrecv, p, hp, herror⟩
      have hle := h.air.defer hdefer
      linarith
    obtain ⟨s₁, hs₁, hcore, hrx₁⟩ := h.toCore.recvOff.exists_dispatch hrx rfl i hfree
    have heq : recvTimer st i { s with mhRecv := .off } =
        (dispatch st i p { s with mhRecv := .off }).bind fun s => rxResume st { s with pktRx := none } := by
      rw [recvTimer, show ({ s with mhRecv := MacTimer.off } : Mac80211).pktRx = some p from hp]
      dsimp only
      rw [asserting_pos hrx]
      rfl
    obtain ⟨s₂, hs₂, hinv⟩ := hcore.exists_rxResume (by rw [hrx₁.mhRecv]; rfl)
    refine ⟨s₂, ?_, hinv⟩
    rw [heq, hs₁]
    exact hs₂

end Ns2.Mac80211
