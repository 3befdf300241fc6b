import Ns2.Mac.MacPhases

/-! What `send` and `tx_resume` leave behind. -/

namespace Ns2.Mac80211

open Option Bool

variable {st : Station} {s s' : Mac80211}

section

variable (st) (hsound : s.mhBackoff.Sound s.clock)
  (hnav : s.mhNav.busy = false → s.nav ≤ s.clock)
include st hsound hnav

theorem exists_setTxState (tx : MacState) :
    ∃ b : BackoffTimer, setTxState st tx s = some { s with
        txState := tx
        mhBackoff := b } ∧ b.busy = s.mhBackoff.busy ∧ Waits { s with
        txState := tx
        mhBackoff := b } :=
  exists_checkBackoffTimer st (s := { s with txState := tx }) hsound hnav

theorem exists_setRxState (rx : MacState) :
    ∃ b : BackoffTimer, setRxState st rx s = some { s with
        rxState := rx
        mhBackoff := b } ∧ b.busy = s.mhBackoff.busy ∧ Waits { s with
        rxState := rx
        mhBackoff := b } :=
  exists_checkBackoffTimer st (s := { s with rxState := rx }) hsound hnav

end

theorem Core.exists_setNav (h : Core st s) (hrx : s.rxState ≠ .idle) (us : ℕ) :
    ∃ nav t, setNav us s = some { s with
        nav := nav
        mhNav := t } ∧ Core st { s with
        nav := nav
        mhNav := t } := by
  rw [setNav]
  have htime : (0 : ℚ) ≤ (us : ℚ) / 10 ^ 6 := by positivity
  by_cases hlater : s.clock + (us : ℚ) / 10 ^ 6 > s.nav
  · have hoff : ∃ t : MacTimer, (if s.mhNav.busy = true then s.mhNav.stop else some s.mhNav) = some t ∧
        t.busy = false := by
      by_cases hbusy : s.mhNav.busy = true
      · rw [if_pos hbusy, MacTimer.stop_eq hbusy]
        exact ⟨_, rfl, rfl⟩
      · rw [if_neg hbusy]
        exact ⟨_, rfl, eq_false_of_not_eq_true hbusy⟩
    obtain ⟨t, ht, hoff⟩ := hoff
    refine ⟨s.clock + (us : ℚ) / 10 ^ 6, ⟨true, s.clock, (us : ℚ) / 10 ^ 6⟩, ?_, h.packets, h.phase, ?_,
      ?_, ⟨h.paced.defer, h.paced.sent, h.paced.acked, h.paced.deafData, h.paced.deafAck⟩⟩
    · rw [if_pos hlater, ht]
      change (t.start s.clock _).bind _ = _
      rw [MacTimer.start_eq hoff htime]
      rfl
    · refine ⟨h.waits.sound, fun hf => (false_ne_true hf.symm).elim, fun hb hrun => ?_,
        fun _ => Or.inl hrx⟩
      exact absurd (isIdle_eq_true_iff.1 (h.waits.running hb hrun)).1 hrx
    · exact ⟨h.air.intf, h.air.recv, h.air.send, h.air.defer,
        fun _ => le_add_of_nonneg_right htime, fun _ => rfl, h.air.txActive, h.air.deaf⟩
  · exact ⟨s.nav, s.mhNav, if_neg hlater, h⟩

theorem not_cleared_of_rts {r : MacPacket} {data : Option MacPacket} : ¬Cleared st (some r) data :=
  fun h => some_ne_none r h.1

theorem not_cleared_none {rts : Option MacPacket} : ¬Cleared st rts none := by
  rintro ⟨-, p, hp, -⟩
  cases hp

theorem exists_sendRTS (h : Packets st s.pktCTRL s.pktRTS s.pktTx s.callback) {p : MacPacket}
    (hdata : s.pktTx = some p) (hrts : s.pktRTS = none) :
    ∃ r, sendRTS st p.ra s = some { s with pktRTS := r } ∧
      Packets st s.pktCTRL r s.pktTx s.callback ∧ ¬Cleared st r s.pktTx := by
  rw [sendRTS]
  split
  · next hnone =>
    rw [hdata] at hnone
    cases hnone
  · next q hq =>
    obtain rfl : p = q := Option.some.inj (hdata.symm.trans hq)
    rw [asserting_pos hrts]
    by_cases hshort : p.size < st.rtsThreshold ∨ p.ra = macBroadcast
    · rw [if_pos hshort]
      refine ⟨s.pktRTS, rfl, h, ?_⟩
      rintro ⟨-, q, hq', hlong⟩
      obtain rfl : p = q := Option.some.inj (hq.symm.trans hq')
      exact hlong hshort
    · rw [if_neg hshort]
      refine ⟨_, rfl, ⟨fun r hr => ?_, h.data, h.ctrl⟩, not_cleared_of_rts⟩
      cases hr
      exact ⟨rfl, rfl, isSome_iff_exists.2 ⟨p, hq⟩⟩

theorem zero_le_dataTime (st : Station) (m : Msdu) : 0 ≤ (dataPacket st m).txtime := by
  apply zero_le_txtime
  split_ifs
  · exact st.dataRate_pos
  · exact st.basicRate_pos

theorem Packets.own_none {ctrl rts data : Option MacPacket} (h : Packets st ctrl rts data false) :
    rts = none ∧ data = none := by
  have hdata : data = none := by
    cases hp : data with
    | none => rfl
    | some p => exact absurd (h.data p hp).2.2 false_ne_true
  refine ⟨?_, hdata⟩
  cases hr : rts with
  | none => rfl
  | some r =>
    have := (h.rts r hr).2.2
    rw [hdata] at this
    cases this

/-- The packet waits for the backoff timer or, when the station is deferring, for `mhDefer_`. -/
theorem exists_waitDifs (st : Station) (hw : Waits s) (i : MacInput) :
    ∃ b : BackoffTimer, waitDifs st i s = some { s with mhBackoff := b } ∧
      (b.busy = true ∨ s.mhDefer.busy = true) ∧ Waits { s with mhBackoff := b } := by
  rw [waitDifs]
  by_cases hoff : s.mhBackoff.busy = false
  · rw [if_pos hoff]
    by_cases hidle : s.isIdle = true
    · rw [if_pos hidle]
      by_cases hdefer : s.mhDefer.busy = false
      · obtain ⟨b, hb, hbusy, hw'⟩ := exists_startBackoff st hw.nav hoff i (zero_le_difs st)
        rw [if_pos hdefer]
        exact ⟨b, hb, Or.inl hbusy, hw'⟩
      · rw [if_neg hdefer]
        exact ⟨s.mhBackoff, rfl, Or.inr (eq_true_of_not_eq_false hdefer), hw⟩
    · obtain ⟨b, hb, hbusy, hw'⟩ := exists_startBackoff st hw.nav hoff i le_rfl
      rw [if_neg hidle]
      exact ⟨b, hb, Or.inl hbusy, hw'⟩
  · rw [if_neg hoff]
    exact ⟨s.mhBackoff, rfl, Or.inl (eq_true_of_not_eq_false hoff), hw⟩

theorem exists_send (hpk : Packets st s.pktCTRL s.pktRTS s.pktTx false) (hw : Waits s) (i : MacInput)
    (m : Msdu) :
    ∃ d r n, ∃ b : BackoffTimer, send st i m s = some { s with
        callback := true
        pktTx := some d
        pktRTS := r
        staSeqno := n
        mhBackoff := b } ∧ Packets st s.pktCTRL r (some d) true ∧ ¬Cleared st r (some d) ∧
      (b.busy = true ∨ s.mhDefer.busy = true) ∧ Waits { s with
        callback := true
        pktTx := some d
        pktRTS := r
        staSeqno := n
        mhBackoff := b } := by
  obtain ⟨hrts, htx⟩ := hpk.own_none
  have hdata : ∀ d, d = dataPacket st m ∨ d = { dataPacket st m with scontrol := s.staSeqno } →
      d.subtype = .data ∧ 0 ≤ d.txtime ∧ true = true := by
    rintro d (rfl | rfl)
    · exact ⟨rfl, zero_le_dataTime st m, rfl⟩
    · exact ⟨rfl, zero_le_dataTime st m, rfl⟩
  have hpk₁ : Packets st s.pktCTRL s.pktRTS (some (dataPacket st m)) true := by
    refine ⟨fun r hr => ?_, fun d hd => hdata d (Or.inl (Option.some.inj hd).symm), hpk.ctrl⟩
    rw [hrts] at hr
    cases hr
  obtain ⟨r, hr, hpk₂, hlong⟩ := exists_sendRTS (s := { s with
    callback := true
    pktTx := some (dataPacket st m) }) hpk₁ rfl hrts
  have hpk₃ : Packets st s.pktCTRL r (some { dataPacket st m with scontrol := s.staSeqno }) true :=
    ⟨hpk₂.rts, fun d hd => hdata d (Or.inr (Option.some.inj hd).symm), hpk.ctrl⟩
  have hlong' : ¬Cleared st r (some { dataPacket st m with scontrol := s.staSeqno }) := by
    rintro ⟨hr, q, hq, hlong'⟩
    cases hq
    exact hlong ⟨hr, _, rfl, hlong'⟩
  have hw₁ : Waits (numberData { s with
      callback := true
      pktTx := some (dataPacket st m)
      pktRTS := r }) :=
    ⟨hw.sound, hw.nav, hw.running, hw.paused⟩
  obtain ⟨b, hb, hbusy, hw₂⟩ := exists_waitDifs st hw₁ i
  refine ⟨_, r, _, b, ?_, hpk₃, hlong', hbusy, hw₂⟩
  rw [send, sendDATA, asserting_pos htx]
  change (sendRTS st (dataPacket st m).ra _).bind _ = _
  rw [hr]
  exact hb

/-- The states in which `tx_resume` is called: the medium is not idle, and no timer of the transmitter
but the backoff timer is busy. -/
structure Resuming (st : Station) (s : Mac80211) : Prop where
  packets : Packets st s.pktCTRL s.pktRTS s.pktTx s.callback
  waits : Waits s
  air : Air s
  send : s.mhSend.busy = false
  defer : s.mhDefer.busy = false
  busy : s.isIdle = false
  intf : s.pktCTRL.isSome ∨ Cleared st s.pktRTS s.pktTx → s.mhIF.busy = true → s.mhIF.due ≤ s.clock
  cleared : Cleared st s.pktRTS s.pktTx → s.mhBackoff.busy = false ∧
    ∀ c, s.pktCTRL = some c → c.subtype = .ack
  deaf : Cleared st s.pktRTS s.pktTx → s.pktCTRL = none → Clean s → s.clock + st.sifs < s.mhRecv.due

theorem Resuming.withBackoff (h : Resuming st s) {b : BackoffTimer} (hw : Waits { s with mhBackoff := b })
    (hdata : ¬Cleared st s.pktRTS s.pktTx) : Resuming st { s with mhBackoff := b } :=
  ⟨h.packets, hw,
    ⟨h.air.intf, h.air.recv, h.air.send, h.air.defer, h.air.nav, h.air.navDue, h.air.txActive, h.air.deaf⟩,
    h.send, h.defer, h.busy, h.intf, fun hc => (hdata hc).elim, h.deaf⟩

/-- What holds before `setTxState(MAC_IDLE)`. -/
structure Resumed (st : Station) (s s' : Mac80211) : Prop where
  packets : Packets st s'.pktCTRL s'.pktRTS s'.pktTx s'.callback
  phase : Phase st .idle s'.mhSend.busy s'.mhDefer.busy s'.pktCTRL s'.pktRTS s'.pktTx s'.mhBackoff.busy
  waits : Waits s'
  air : Air s'
  paced : Paced st { s' with txState := .idle }
  rx : SameRx s s'

theorem Paced.of_rest (hdefer : s.mhDefer.busy = false) (hsend : s.mhSend.busy = false)
    (htx : s.txState = .idle) : Paced st s := by
  have hoff : ∀ {p : Prop}, s.mhDefer.busy = true → p := by
    intro p hbusy
    rw [hdefer] at hbusy
    cases hbusy
  refine ⟨hoff, fun _ hbusy => ?_, fun hack => ?_, hoff, fun hack => ?_⟩
  · rw [hsend] at hbusy
    cases hbusy
  · rw [htx] at hack
    cases hack
  · rw [htx] at hack
    cases hack

section

variable (h : Resuming st s)
include h

theorem Resuming.exists_startDefer (hwhy : s.pktCTRL.isSome ∨ Cleared st s.pktRTS s.pktTx) :
    ∃ s', startDefer st s = some s' ∧ Resumed st s s' := by
  rw [startDefer, MacTimer.start_eq h.defer st.sifs_pos.le]
  refine ⟨_, rfl, h.packets, ?_, ⟨h.waits.sound, h.waits.nav, h.waits.running, h.waits.paused⟩,
    ⟨h.air.intf, h.air.recv, h.air.send, fun _ => ?_, h.air.nav, h.air.navDue, h.air.txActive, h.air.deaf⟩,
    ⟨fun _ => ⟨le_rfl, rfl, h.intf hwhy⟩, fun _ hbusy => ?_, fun hf => (by cases hf),
      fun _ hctrl hclean => ?_, fun hf => (by cases hf)⟩, ⟨rfl, rfl, rfl, rfl⟩⟩
  · cases hctrl : s.pktCTRL with
    | some c => exact .respond rfl h.send rfl rfl fun hc => hctrl ▸ h.cleared hc
    | none =>
      have hc : Cleared st s.pktRTS s.pktTx := hwhy.resolve_left (by rw [hctrl]; exact false_ne_true)
      exact .data rfl h.send rfl rfl (h.cleared hc).1 hc
  · exact le_add_of_nonneg_right st.sifs_pos.le
  · exact absurd (h.send.symm.trans hbusy) false_ne_true
  · have hc : Cleared st s.pktRTS s.pktTx :=
      hwhy.resolve_left (by rw [show s.pktCTRL = none from hctrl]; exact false_ne_true)
    exact h.deaf hc hctrl hclean

theorem Resuming.resumed_of_backoff {b : BackoffTimer} (hb : b.busy = true)
    (hw : Waits { s with mhBackoff := b }) (hctrl : s.pktCTRL = none)
    (hdata : ¬Cleared st s.pktRTS s.pktTx) : Resumed st s { s with mhBackoff := b } :=
  ⟨h.packets, .rest rfl h.send h.defer hctrl (fun _ => hb) hdata, hw,
    ⟨h.air.intf, h.air.recv, h.air.send, h.air.defer, h.air.nav, h.air.navDue, h.air.txActive, h.air.deaf⟩,
    .of_rest h.defer h.send rfl, ⟨rfl, rfl, rfl, rfl⟩⟩

theorem Resuming.exists_startBackoff (i : MacInput) (hctrl : s.pktCTRL = none)
    (hdata : ¬Cleared st s.pktRTS s.pktTx) :
    ∃ s', (if s.mhBackoff.busy = false then startBackoff st i st.difs s else some s) = some s' ∧
      Resumed st s s' := by
  by_cases hoff : s.mhBackoff.busy = false
  · obtain ⟨b, hb, hbusy, hw⟩ := Mac80211.exists_startBackoff st h.waits.nav hoff i (zero_le_difs st)
    rw [if_pos hoff]
    exact ⟨_, hb, h.resumed_of_backoff hbusy hw hctrl hdata⟩
  · rw [if_neg hoff]
    exact ⟨s, rfl, h.resumed_of_backoff (eq_true_of_not_eq_false hoff) h.waits hctrl hdata⟩

theorem Resuming.exists_callBack (i : MacInput) (hctrl : s.pktCTRL = none) (htx : s.pktTx = none) :
    ∃ s', callBack st i s = some s' ∧ Resumed st s s' := by
  have hpk : Packets st s.pktCTRL s.pktRTS s.pktTx false := by
    refine ⟨h.packets.rts, fun d hd => ?_, h.packets.ctrl⟩
    rw [htx] at hd
    cases hd
  have hw : Waits { s with callback := false } :=
    ⟨h.waits.sound, h.waits.nav, h.waits.running, h.waits.paused⟩
  have hair : Air { s with callback := false } :=
    ⟨h.air.intf, h.air.recv, h.air.send, h.air.defer, h.air.nav, h.air.navDue, h.air.txActive, h.air.deaf⟩
  rw [callBack]
  split
  · refine ⟨_, rfl, hpk, .rest rfl h.send h.defer hctrl (fun hs => ?_) ?_, hw, hair,
      .of_rest h.defer h.send rfl, ⟨rfl, rfl, rfl, rfl⟩⟩
    · rw [show s.pktTx = none from htx] at hs
      cases hs
    · rw [show s.pktTx = none from htx]
      exact not_cleared_none
  · next m _ =>
    obtain ⟨d, r, n, b, heq, hpk', hlong, hb, hw'⟩ :=
      exists_send (s := { s with callback := false }) hpk hw i m
    have hbusy : b.busy = true := by
      refine hb.resolve_right fun hdefer => ?_
      exact absurd (h.defer.symm.trans hdefer) false_ne_true
    exact ⟨_, heq, hpk', .rest rfl h.send h.defer hctrl (fun _ => hbusy) hlong, hw',
      ⟨hair.intf, hair.recv, hair.send, hair.defer, hair.nav, hair.navDue, hair.txActive, hair.deaf⟩,
      .of_rest h.defer h.send rfl, ⟨rfl, rfl, rfl, rfl⟩⟩

theorem Resuming.exists_resumeNext (i : MacInput) :
    ∃ s', resumeNext st i s = some s' ∧ Resumed st s s' := by
  rw [resumeNext]
  by_cases hctrl : s.pktCTRL.isSome = true
  · rw [if_pos hctrl]
    exact h.exists_startDefer (Or.inl hctrl)
  · have hctrl' : s.pktCTRL = none := not_isSome_iff_eq_none.1 hctrl
    rw [if_neg hctrl]
    by_cases hrts : s.pktRTS.isSome = true
    · rw [if_pos hrts]
      refine h.exists_startBackoff i hctrl' fun hc => ?_
      rw [hc.1] at hrts
      cases hrts
    · have hrts' : s.pktRTS = none := not_isSome_iff_eq_none.1 hrts
      rw [if_neg hrts]
      split
      · next p hp =>
        by_cases hshort : p.size < st.rtsThreshold ∨ p.ra = macBroadcast
        · rw [if_pos hshort]
          refine h.exists_startBackoff i hctrl' ?_
          rintro ⟨-, q, hq, hlong⟩
          obtain rfl : p = q := Option.some.inj (hp.symm.trans hq)
          exact hlong hshort
        · have hc : Cleared st s.pktRTS s.pktTx := ⟨hrts', p, hp, hshort⟩
          rw [if_neg hshort, if_pos (h.cleared hc).1]
          exact h.exists_startDefer (Or.inr hc)
      · next hp =>
        by_cases hcallback : s.callback = true
        · rw [if_pos hcallback]
          exact h.exists_callBack i hctrl' hp
        · rw [if_neg hcallback]
          have hpk := h.packets
          refine ⟨s, rfl, hpk, .rest rfl h.send h.defer hctrl' (fun hs => ?_) ?_, h.waits, h.air,
            .of_rest h.defer h.send rfl, SameRx.refl s⟩
          · rw [hp] at hs
            cases hs
          · rw [hp]
            exact not_cleared_none

/-- No assertion of `tx_resume` fails, and the station waits for its next transmission. -/
theorem Resuming.exists_txResume (i : MacInput) :
    ∃ s', txResume st i s = some s' ∧ Core st s' ∧ SameRx s s' := by
  obtain ⟨s₁, hs₁, hr⟩ := h.exists_resumeNext i
  obtain ⟨b, hb, hbusy, hw⟩ := exists_setTxState st hr.waits.sound hr.waits.nav .idle
  rw [txResume, asserting_pos h.send, asserting_pos h.defer, hs₁]
  refine ⟨_, hb, ⟨hr.packets, ?_, hw, ?_, ?_⟩, ⟨hr.rx.clock, hr.rx.rxState, hr.rx.pktRx, hr.rx.mhRecv⟩⟩
  · have := hr.phase
    rw [← hbusy] at this
    exact this
  · exact ⟨hr.air.intf, hr.air.recv, hr.air.send, hr.air.defer, hr.air.nav, hr.air.navDue, hr.air.txActive,
      hr.air.deaf⟩
  · exact ⟨hr.paced.defer, hr.paced.sent, hr.paced.acked, hr.paced.deafData, hr.paced.deafAck⟩

end

end Ns2.Mac80211
