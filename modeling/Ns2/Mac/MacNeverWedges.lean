import Ns2.Mac.MacReceive

/-! A station never wedges, in every run in which no deferred CTS is dropped while a packet waits for it,
no CTS has a negative timeout, and nothing is sent while the transmitter is active. -/

namespace Ns2.Mac80211

variable {st : Station} {s s' : Mac80211}

/-- The states in which `mhSend_` expires, once it is off. -/
structure Ended (st : Station) (s : Mac80211) : Prop where
  packets : Packets st s.pktCTRL s.pktRTS s.pktTx s.callback
  waits : Waits s
  air : Air s
  send : s.mhSend.busy = false
  defer : s.mhDefer.busy = false
  busy : s.isIdle = false

theorem Ended.resuming (h : Ended st s) {ctrl rts data : Option MacPacket} {b : BackoffTimer}
    (hpk : Packets st ctrl rts data s.callback) (hw : Waits { s with mhBackoff := b })
    (hintf : ctrl.isSome ∨ Cleared st rts data → s.mhIF.busy = true → s.mhIF.due ≤ s.clock)
    (hcleared : Cleared st rts data → b.busy = false ∧ ctrl = none)
    (hdeaf : Cleared st rts data → Clean s → s.clock + st.sifs < s.mhRecv.due) (cw ssrc slrc : ℕ) :
    Resuming st { s with
      pktCTRL := ctrl
      pktRTS := rts
      pktTx := data
      mhBackoff := b
      cw := cw
      ssrc := ssrc
      slrc := slrc } :=
  ⟨hpk, ⟨hw.sound, hw.nav, hw.running, hw.paused⟩,
    ⟨h.air.intf, h.air.recv, h.air.send, h.air.defer, h.air.nav, h.air.navDue, h.air.txActive, h.air.deaf⟩,
    h.send, h.defer, h.busy, hintf,
    fun hc => ⟨(hcleared hc).1, fun _ hsome => absurd ((hcleared hc).2.symm.trans hsome)
      (Option.some_ne_none _).symm⟩, fun hc _ => hdeaf hc⟩

section

variable (h : Ended st s) (i : MacInput) (hback : s.mhBackoff.busy = false)
include h i hback

theorem Ended.exists_retransmitRTS
    (hrts : s.pktRTS.isSome = true) (hintf : s.mhIF.busy = true → s.mhIF.due ≤ s.clock) :
    ∃ s', retransmitRTS st i s = some s' ∧ Resuming st s' ∧ SameRx s s' := by
  rw [retransmitRTS]
  split
  · next p r hp hr =>
    obtain ⟨hsub, htxtime, hdata⟩ := h.packets.rts r hr
    rw [asserting_pos hback]
    by_cases hlimit : s.ssrc + 1 ≥ st.shortRetryLimit
    · rw [if_pos hlimit]
      exact ⟨_, rfl, h.resuming h.packets.dropOwn h.waits (fun _ => hintf)
        (fun hc => (not_cleared_none hc).elim) (fun hc => (not_cleared_none hc).elim) st.cwMin 0 s.slrc,
        ⟨rfl, rfl, rfl, rfl⟩⟩
    · rw [if_neg hlimit]
      obtain ⟨b, hb, hbusy, hw⟩ := exists_startBackoff st (s := incCw st { s with
        pktRTS := some { r with retry := true }
        ssrc := s.ssrc + 1 }) h.waits.nav hback i le_rfl
      have hpk : Packets st s.pktCTRL (some { r with retry := true }) s.pktTx s.callback :=
        ⟨fun r' hr' => by cases hr'; exact ⟨hsub, htxtime, hdata⟩, h.packets.data, h.packets.ctrl⟩
      exact ⟨_, hb, h.resuming hpk ⟨hw.sound, hw.nav, hw.running, hw.paused⟩ (fun _ => hintf)
        (fun hc => (not_cleared_of_rts hc).elim) (fun hc => (not_cleared_of_rts hc).elim) _ (s.ssrc + 1)
        s.slrc, ⟨rfl, rfl, rfl, rfl⟩⟩
  · next hnone =>
    obtain ⟨r, hr⟩ := Option.isSome_iff_exists.1 hrts
    obtain ⟨p, hp⟩ := Option.isSome_iff_exists.1 (h.packets.rts r hr).2.2
    exact (hnone p r hp hr).elim

theorem Ended.exists_retryDATA (hrts : s.pktRTS = none) {p : MacPacket} (hp : s.pktTx = some p)
    (hintf : s.mhIF.busy = true → s.mhIF.due ≤ s.clock) (rcount thresh : ℕ) {set : ℕ → Mac80211}
    (hset : ∀ n, ∃ ssrc slrc, set n = { s with
      ssrc := ssrc
      slrc := slrc }) :
    ∃ s', retryDATA st i p rcount thresh set = some s' ∧ Resuming st s' ∧ SameRx s s' := by
  have hnone : ∀ r, s.pktRTS = some r → False := fun r hr => by
    rw [hrts] at hr
    cases hr
  rw [retryDATA]
  split
  · obtain ⟨n, m, hnm⟩ := hset 0
    have hdrop : Packets st s.pktCTRL s.pktRTS none s.callback :=
      ⟨fun r hr => (hnone r hr).elim, h.packets.dropOwn.data, h.packets.ctrl⟩
    rw [hnm]
    exact ⟨_, rfl, h.resuming hdrop h.waits (fun _ => hintf) (fun hc => (not_cleared_none hc).elim)
      (fun hc => (not_cleared_none hc).elim) st.cwMin n m, ⟨rfl, rfl, rfl, rfl⟩⟩
  · obtain ⟨n, m, hnm⟩ := hset rcount
    obtain ⟨hsub, htxtime, hcallback⟩ := h.packets.data p hp
    have hpk : Packets st s.pktCTRL s.pktRTS (some { p with retry := true }) s.callback := by
      refine ⟨fun r hr => (hnone r hr).elim, fun q hq => ?_, h.packets.ctrl⟩
      cases hq
      exact ⟨hsub, htxtime, hcallback⟩
    obtain ⟨r, hr, hpk', hlong⟩ := exists_sendRTS (s := { s with
      ssrc := n
      slrc := m
      pktTx := some { p with retry := true } }) hpk rfl hrts
    obtain ⟨b, hb, hbusy, hw⟩ := exists_startBackoff st (s := incCw st { s with
      ssrc := n
      slrc := m
      pktTx := some { p with retry := true }
      pktRTS := r }) h.waits.nav hback i le_rfl
    rw [hnm]
    rw [hr]
    exact ⟨_, hb, h.resuming hpk' ⟨hw.sound, hw.nav, hw.running, hw.paused⟩ (fun _ => hintf)
      (fun hc => (hlong hc).elim) (fun hc => (hlong hc).elim) _ n m, ⟨rfl, rfl, rfl, rfl⟩⟩

theorem Ended.exists_retransmitDATA (hrts : s.pktRTS = none) (hdata : s.pktTx.isSome = true)
    (hintf : s.mhIF.busy = true → s.mhIF.due ≤ s.clock) :
    ∃ s', retransmitDATA st i s = some s' ∧ Resuming st s' ∧ SameRx s s' := by
  have hdrop : Packets st s.pktCTRL s.pktRTS none s.callback := by
    rw [hrts]
    exact h.packets.dropOwn
  rw [retransmitDATA, asserting_pos hback]
  split
  · next hnone =>
    rw [hnone] at hdata
    cases hdata
  · next p hp =>
    rw [asserting_pos hrts]
    by_cases hcast : p.ra = macBroadcast
    · rw [if_pos hcast]
      obtain ⟨b, hb, hbusy, hw⟩ := exists_startBackoff st (s := rstCw st { s with pktTx := none })
        h.waits.nav hback i le_rfl
      exact ⟨_, hb, h.resuming hdrop ⟨hw.sound, hw.nav, hw.running, hw.paused⟩ (fun _ => hintf)
        (fun hc => (not_cleared_none hc).elim) (fun hc => (not_cleared_none hc).elim) st.cwMin s.ssrc
        s.slrc, ⟨rfl, rfl, rfl, rfl⟩⟩
    · rw [if_neg hcast]
      split
      · exact h.exists_retryDATA i hback hrts hp hintf _ _ fun n => ⟨n, s.slrc, rfl⟩
      · exact h.exists_retryDATA i hback hrts hp hintf _ _ fun n => ⟨s.ssrc, n, rfl⟩

end

theorem endSend_rts (i : MacInput) (htx : s.txState = .rts) : endSend st i s = retransmitRTS st i s := by
  rw [endSend, htx]

theorem endSend_send (i : MacInput) (htx : s.txState = .send) : endSend st i s = retransmitDATA st i s := by
  rw [endSend, htx]

theorem endSend_answer (i : MacInput) (htx : s.txState = .cts ∨ s.txState = .ack)
    (hctrl : s.pktCTRL.isSome = true) : endSend st i s = some { s with pktCTRL := none } := by
  rw [endSend]
  rcases htx with htx | htx
  · rw [htx]
    exact asserting_pos hctrl _
  · rw [htx]
    exact asserting_pos hctrl _

theorem Inv.exists_sendTimer (h : Inv st s) (i : MacInput) (he : Enabled st s .sendEnd) :
    ∃ s', sendTimer st i { s with mhSend := .off } = some s' ∧ Inv st s' := by
  obtain ⟨hbusy, hdue⟩ := he
  have hwaits : Waits { s with mhSend := .off } :=
    ⟨h.waits.sound, h.waits.nav, h.waits.running, h.waits.paused⟩
  have hair : Air { s with mhSend := .off } :=
    ⟨h.air.intf, h.air.recv, fun hf => (by cases hf), h.air.defer, h.air.nav, h.air.navDue, h.air.txActive,
      h.air.deaf⟩
  have hended : s.txState ≠ .idle → s.mhDefer.busy = false → Ended st { s with mhSend := .off } :=
    fun htx hdefer => ⟨h.packets, hwaits, hair, rfl, hdefer, isIdle_eq_false_of_tx htx⟩
  have hintf : s.txState ≠ .cts → s.mhIF.busy = true → s.mhIF.due ≤ s.clock :=
    fun htx hon => hdue ▸ h.paced.sent htx hbusy hon
  obtain ⟨s₁, hs₁, hres, hrx⟩ : ∃ s₁, endSend st i { s with mhSend := .off } = some s₁ ∧ Resuming st s₁ ∧
      SameRx { s with mhSend := .off } s₁ := by
    cases h.phase with
    | rest _ hsend | respond _ hsend | data _ hsend =>
      exact absurd (hsend.symm.trans hbusy) Bool.false_ne_true
    | rts htx _ hdefer _ hback hrts =>
      rw [endSend_rts (s := { s with mhSend := .off }) i htx]
      exact (hended (by rw [htx]; decide) hdefer).exists_retransmitRTS i hback hrts
        (hintf (by rw [htx]; decide))
    | send htx _ hdefer _ hback hrts hdata =>
      rw [endSend_send (s := { s with mhSend := .off }) i htx]
      exact (hended (by rw [htx]; decide) hdefer).exists_retransmitDATA i hback hrts hdata
        (hintf (by rw [htx]; decide))
    | cts htx _ hdefer hctrl hdata =>
      rw [endSend_answer (s := { s with mhSend := .off }) i (Or.inl htx) hctrl]
      refine ⟨_, rfl, (hended (by rw [htx]; decide) hdefer).resuming
        h.packets.dropCTRL hwaits (fun hor => ?_)
        (fun hc => (hdata hc).elim) (fun hc => (hdata hc).elim) s.cw s.ssrc s.slrc, ⟨rfl, rfl, rfl, rfl⟩⟩
      exact (hdata (hor.resolve_left Bool.false_ne_true)).elim
    | ack htx _ hdefer hctrl hdata =>
      have hdeaf := h.paced.deafAck htx
      rw [hdue] at hdeaf
      rw [endSend_answer (s := { s with mhSend := .off }) i (Or.inr htx) hctrl]
      exact ⟨_, rfl, (hended (by rw [htx]; decide) hdefer).resuming
        h.packets.dropCTRL hwaits
        (fun _ => hintf (by rw [htx]; decide)) (fun hc => ⟨hdata hc, rfl⟩) (fun _ => hdeaf) s.cw s.ssrc
        s.slrc, ⟨rfl, rfl, rfl, rfl⟩⟩
  obtain ⟨s₂, hs₂, hcore, hrx₂⟩ := hres.exists_txResume i
  rw [sendTimer, hs₁]
  exact ⟨s₂, hs₂, hcore, (hrx.trans hrx₂).receiver (SameRx.receiver (s := s) ⟨rfl, rfl, rfl, rfl⟩ h.receiver)⟩

theorem Inv.tick (h : Inv st s) {time : ℚ} (he : Enabled st s (.tick time)) :
    Inv st { s with clock := time } := by
  obtain ⟨hle, htimers, hback⟩ := he
  have hdue : ∀ t ∈ s.timers, t.busy = true → time ≤ t.due := htimers
  have hidle : s.isIdle = true → ({ s with clock := time } : Mac80211).isIdle = true := by
    intro hidle
    obtain ⟨hrx, htx, hnav⟩ := isIdle_eq_true_iff.1 hidle
    exact isIdle_eq_true_iff.2 ⟨hrx, htx, hnav.trans hle⟩
  refine ⟨⟨h.packets, h.phase, ⟨⟨h.waits.sound.busy, h.waits.sound.rtime, hback⟩,
    fun hb => (h.waits.nav hb).trans hle, fun hb hrun => hidle (h.waits.running hb hrun), h.waits.paused⟩,
    ⟨hdue s.mhIF (by simp [timers]), hdue s.mhRecv (by simp [timers]), hdue s.mhSend (by simp [timers]),
      hdue s.mhDefer (by simp [timers]), hdue s.mhNav (by simp [timers]), h.air.navDue, h.air.txActive,
      h.air.deaf⟩,
    ⟨fun hb => ⟨(h.paced.defer hb).1.trans hle, (h.paced.defer hb).2⟩, h.paced.sent,
      fun htx hb => (h.paced.acked htx hb).trans ?_, h.paced.deafData, h.paced.deafAck⟩⟩, ?_⟩
  · split_ifs
    · exact le_rfl
    · exact hle
  cases h.receiver with
  | idle hrx hrecv hpkt => exact .idle hrx hrecv hpkt
  | recv hrx hrecv hpkt => exact .recv hrx hrecv hpkt

theorem Inv.exists_navHandler (h : Inv st s) (he : Enabled st s .nav) :
    ∃ s', navHandler st { s with mhNav := .off } = some s' ∧ Inv st s' := by
  obtain ⟨hbusy, hdue⟩ := he
  have hnav : s.nav = s.clock := (h.air.navDue hbusy).symm.trans hdue
  have hinv : ∀ {b : BackoffTimer}, b.busy = s.mhBackoff.busy → Waits { s with
      mhNav := .off
      mhBackoff := b } → Inv st { s with
      mhNav := .off
      mhBackoff := b } := by
    intro b hb hw
    refine ⟨⟨h.packets, ?_, hw,
      ⟨h.air.intf, h.air.recv, h.air.send, h.air.defer, fun hf => (by cases hf), fun hf => (by cases hf),
        h.air.txActive, h.air.deaf⟩,
      ⟨h.paced.defer, h.paced.sent, h.paced.acked, h.paced.deafData, h.paced.deafAck⟩⟩,
      SameRx.receiver (s := s) ⟨rfl, rfl, rfl, rfl⟩ h.receiver⟩
    have := h.phase
    rw [← hb] at this
    exact this
  have hsame : ({ s with mhNav := MacTimer.off } : Mac80211).isIdle = s.isIdle := rfl
  rw [navHandler, hsame]
  by_cases hidle : s.isIdle = true
  · by_cases hpaused : s.mhBackoff.paused = true
    · obtain ⟨b, hb, hsound, hb', hrun⟩ := h.waits.sound.exists_resume (zero_le_difs st) hpaused
      rw [if_pos ⟨hidle, hpaused⟩, hb]
      refine ⟨_, rfl, hinv (hb'.trans (h.waits.sound.busy hpaused).symm) ⟨hsound, fun _ => hnav.le,
        fun _ _ => hidle, fun hp => ?_⟩⟩
      exact absurd (hrun.symm.trans hp) Bool.false_ne_true
    · rw [if_neg fun hp => hpaused hp.2]
      exact ⟨_, rfl, hinv rfl ⟨h.waits.sound, fun _ => hnav.le, h.waits.running,
        fun hp => (hpaused hp).elim⟩⟩
  · rw [if_neg fun hp => hidle hp.1]
    refine ⟨_, rfl, hinv rfl ⟨h.waits.sound, fun _ => hnav.le, h.waits.running, fun _ => ?_⟩⟩
    exact busy_of_isIdle_eq_false (s := { s with mhNav := .off }) (fun _ => hnav.le)
      (Bool.eq_false_of_not_eq_true hidle)

theorem Inv.txHandler (h : Inv st s) (he : Enabled st s .txEnd) :
    Inv st (txHandler { s with mhIF := .off }) := by
  obtain ⟨hbusy, hdue⟩ := he
  refine ⟨⟨h.packets, h.phase, ⟨h.waits.sound, h.waits.nav, h.waits.running, h.waits.paused⟩,
    ⟨fun hf => (by cases hf), h.air.recv, h.air.send, h.air.defer, h.air.nav, h.air.navDue, rfl,
      fun hf => (by cases hf)⟩,
    ⟨fun hb => ⟨(h.paced.defer hb).1, (h.paced.defer hb).2.1, fun hf => (by cases hf)⟩,
      fun _ _ hf => (by cases hf), fun htx hb => ?_, h.paced.deafData, h.paced.deafAck⟩⟩,
    SameRx.receiver (s := s) ⟨rfl, rfl, rfl, rfl⟩ h.receiver⟩
  have hle := h.paced.acked htx hb
  rw [if_pos hbusy, hdue] at hle
  exact hle

theorem inv_init (st : Station) : Inv st (init st) :=
  ⟨⟨⟨fun _ hr => (by cases hr), fun _ hd => (by cases hd), fun _ hc => (by cases hc)⟩,
    .rest rfl rfl rfl rfl (fun hf => (by cases hf)) not_cleared_none,
    ⟨BackoffTimer.sound_off _, fun _ => le_rfl, fun hf => (by cases hf), fun hf => (by cases hf)⟩,
    ⟨fun hf => (by cases hf), fun hf => (by cases hf), fun hf => (by cases hf), fun hf => (by cases hf),
      fun hf => (by cases hf), fun hf => (by cases hf), rfl, fun hf => (by cases hf)⟩,
    .of_rest rfl rfl rfl⟩, .idle rfl rfl rfl⟩

theorem Inv.unwedged (h : Inv st s) : s.Unwedged := by
  have hsend : s.txState ≠ .idle → s.mhSend.busy = true := by
    intro htx
    cases h.phase with
    | rest htx' | respond htx' | data htx' => exact (htx htx').elim
    | rts _ hsend | send _ hsend | cts _ hsend | ack _ hsend => exact hsend
  refine ⟨fun hown => ?_, fun hpaused => ?_⟩
  · have hdata : s.pktTx.isSome = true := by
      rcases hown with hrts | hdata
      · obtain ⟨r, hr⟩ := Option.isSome_iff_exists.1 hrts
        exact (h.packets.rts r hr).2.2
      · exact hdata
    cases h.phase with
    | rest _ _ _ _ hback => exact Or.inl (hback hdata)
    | respond _ _ hdefer | data _ _ hdefer => exact Or.inr (Or.inl hdefer)
    | rts _ hsend | send _ hsend | cts _ hsend | ack _ hsend => exact Or.inr (Or.inr hsend)
  · rcases h.waits.paused hpaused with hrx | htx | hnav
    · cases h.receiver with
      | idle hrx' => exact (hrx hrx').elim
      | recv _ hrecv => exact Or.inl hrecv
    · exact Or.inr (Or.inl (hsend htx))
    · exact Or.inr (Or.inr hnav)

theorem Inv.exists_step (h : Inv st s) (i : MacInput) {e : MacEvent} (he : Enabled st s e)
    (hm : Meets st s e) : ∃ s', step st i s e = some s' ∧ Inv st s' := by
  cases e with
  | tick time => exact ⟨_, rfl, h.tick he⟩
  | send m =>
    obtain ⟨s', hs', hcore, hrx⟩ := h.toCore.exists_send he i m
    exact ⟨s', hs', hcore, hrx.receiver h.receiver⟩
  | recv p => exact h.exists_recv he
  | backoff => exact h.exists_backoffHandler i he hm
  | defer => exact h.exists_deferHandler i he hm
  | nav => exact h.exists_navHandler he
  | recvEnd => exact h.exists_recvTimer i he
  | sendEnd => exact h.exists_sendTimer i he
  | txEnd => exact ⟨_, rfl, h.txHandler he⟩

theorem Inv.meets_of_unwedged (h : Inv st s) {i : MacInput} {e : MacEvent} (he : Enabled st s e)
    (hs' : step st i s e = some s') (hun : s'.Unwedged) : Meets st s e := by
  by_contra hm
  cases e with
  | backoff =>
    have hnone := h.backoffHandler_eq_none i he hm
    rw [step, hnone] at hs'
    cases hs'
  | defer => exact h.deferHandler_of_not_meets i he hm hs' hun
  | tick _ | send _ | recv _ | nav | recvEnd | sendEnd | txEnd => exact hm trivial

/-- The MAC never wedges: no assertion fails in the run, and the next event goes wrong exactly if it
does not meet the condition. -/
theorem never_wedges_of_meets (st : Station) {es : List (MacInput × MacEvent)}
    (hok : (machine st).RunsWith (fun s e => Enabled st s e.2 ∧ Meets st s e.2) (init st) es) :
    ∃ s us, (machine st).run (init st) es = some (s, us) ∧ s.Unwedged ∧
      ∀ i e, Enabled st s e → ((∃ s', step st i s e = some s' ∧ s'.Unwedged) ↔ Meets st s e) := by
  have hstep : ∀ (s : Mac80211) (e : MacInput × MacEvent), Inv st s →
      Enabled st s e.2 ∧ Meets st s e.2 →
      ∃ s' u, (machine st).step s e = some (s', u) ∧ Inv st s' ∧ (fun _ _ => True) e u := by
    rintro s ⟨i, e⟩ h ⟨he, hm⟩
    obtain ⟨s', hs', hinv⟩ := h.exists_step i he hm
    refine ⟨s', (), ?_, hinv, trivial⟩
    rw [machine]
    dsimp only
    rw [hs']
    rfl
  obtain ⟨s, us, hrun, hinv, -⟩ := hok.exists_run hstep (inv_init st)
  refine ⟨s, us, hrun, hinv.unwedged, fun i e he => ⟨?_, fun hm => ?_⟩⟩
  · rintro ⟨s', hs', hun⟩
    exact hinv.meets_of_unwedged he hs' hun
  · obtain ⟨s', hs', hinv'⟩ := hinv.exists_step i he hm
    exact ⟨s', hs', hinv'.unwedged⟩

/-- The backoff timer runs only on an idle medium, the send timer just while the transmitter is busy, the
receiver holds a packet just while it is, a station that transmits reads no frame, and no timer is late. -/
theorem senses_carrier_of_meets (st : Station) {es : List (MacInput × MacEvent)} {us : List Unit}
    (hok : (machine st).RunsWith (fun s e => Enabled st s e.2 ∧ Meets st s e.2) (init st) es)
    (hrun : (machine st).run (init st) es = some (s, us)) :
    (s.mhBackoff.busy = true → s.mhBackoff.paused = false →
      s.rxState = .idle ∧ s.txState = .idle ∧ s.nav ≤ s.clock ∧ s.clock ≤ s.mhBackoff.due) ∧
    (s.mhSend.busy = true ↔ s.txState ≠ .idle) ∧ (s.pktRx.isSome = true ↔ s.rxState ≠ .idle) ∧
    (s.mhIF.busy = true → ¬s.Clean) ∧ ∀ t ∈ s.timers, t.busy = true → s.clock ≤ t.due := by
  have hinv : Inv st s := hok.keeps (fun s e s' u h hmeets hstep => by
    obtain ⟨s₁, hs₁, hinv⟩ := h.exists_step e.1 hmeets.1 hmeets.2
    simp only [machine, hs₁] at hstep
    cases hstep
    exact hinv) hrun (inv_init st)
  refine ⟨fun hbusy hrunning => ?_, ?_, ?_, fun hbusy => ?_, ?_⟩
  · obtain ⟨hrx, htx, hnav⟩ := isIdle_eq_true_iff.1 (hinv.waits.running hbusy hrunning)
    exact ⟨hrx, htx, hnav, hinv.waits.sound.due hbusy hrunning⟩
  · cases hinv.phase <;> simp [*]
  · rcases hinv.receiver with ⟨hrx, -, hpkt⟩ | ⟨hrx | hrx, -, hpkt⟩ <;> simp [hrx, hpkt]
  · exact hinv.air.deaf (hinv.air.txActive.trans hbusy)
  · simp only [timers, List.forall_mem_cons]
    exact ⟨hinv.air.intf, hinv.air.nav, hinv.air.recv, hinv.air.send, hinv.air.defer, by simp⟩

/-- The defaults, for node 1. -/
def defaultStation : Station where
  cwMin := 31
  cwMax := 1023
  slotTime := 20 / 10 ^ 6
  sifs := 10 / 10 ^ 6
  preambleLength := 144
  plcpHeaderLength := 48
  plcpDataRate := 10 ^ 6
  rtsThreshold := 0
  shortRetryLimit := 7
  longRetryLimit := 4
  basicRate := 10 ^ 6
  dataRate := 2 * 10 ^ 6
  index := 1
  cacheNodeCount := 4
  cwMin_pos := by decide
  cwMax_pos := by decide
  slotTime_pos := by norm_num
  sifs_pos := by norm_num
  plcpDataRate_pos := by norm_num
  basicRate_pos := by norm_num
  dataRate_pos := by norm_num
  index_ne := by decide

/-- Node 2 asks node `ra` for a CTS. -/
def rtsFrame (ra : ℕ) : MacPacket where
  subtype := .rts
  ra := ra
  ta := 2
  duration := 3000
  scontrol := 0
  retry := false
  toDs := false
  fromDs := false
  size := 44
  txtime := 352 / 10 ^ 6
  error := false
  rxPr := 1
  cpThresh := 10

def macRun (events : List MacEvent) : List (MacInput × MacEvent) := events.map fun e => (⟨3, none, none⟩, e)

/-- A packet is given to the station while it defers to the CTS, which is sent. -/
def ctsSent : List (MacInput × MacEvent) :=
  macRun [.recv (rtsFrame 1), .tick (352 / 10 ^ 6), .recvEnd, .tick (355 / 10 ^ 6), .send ⟨2, 500⟩,
    .tick (362 / 10 ^ 6), .defer]

theorem never_wedges_of_meets_ctsSent :
    ∃ s us, (machine defaultStation).run (init defaultStation) ctsSent = some (s, us) ∧ s.Unwedged ∧
      ∀ i e, Enabled defaultStation s e →
        ((∃ s', step defaultStation i s e = some s' ∧ s'.Unwedged) ↔ Meets defaultStation s e) :=
  never_wedges_of_meets defaultStation (by decide +kernel)

theorem senses_carrier_of_meets_ctsSent : ∃ s us,
    (machine defaultStation).run (init defaultStation) ctsSent = some (s, us) ∧
    (s.mhBackoff.busy = true → s.mhBackoff.paused = false →
      s.rxState = .idle ∧ s.txState = .idle ∧ s.nav ≤ s.clock ∧ s.clock ≤ s.mhBackoff.due) ∧
    (s.mhSend.busy = true ↔ s.txState ≠ .idle) ∧ (s.pktRx.isSome = true ↔ s.rxState ≠ .idle) ∧
    (s.mhIF.busy = true → ¬s.Clean) ∧ ∀ t ∈ s.timers, t.busy = true → s.clock ≤ t.due := by
  obtain ⟨⟨s, us⟩, hrun⟩ := Option.isSome_iff_exists.1 (by decide +kernel :
    ((machine defaultStation).run (init defaultStation) ctsSent).isSome)
  exact ⟨s, us, hrun, senses_carrier_of_meets _ (by decide +kernel) hrun⟩

/-- Another frame begins before the CTS is sent. -/
def ctsDropped : List (MacInput × MacEvent) :=
  macRun [.recv (rtsFrame 1), .tick (352 / 10 ^ 6), .recvEnd, .tick (355 / 10 ^ 6), .send ⟨2, 500⟩,
    .tick (360 / 10 ^ 6), .recv (rtsFrame 3), .tick (362 / 10 ^ 6), .defer]

/-- The packet is stranded. -/
theorem not_unwedged_ctsDropped : ¬∀ (st : Station) (es : List (MacInput × MacEvent)),
    (machine st).RunsWith (fun s e => Enabled st s e.2) (init st) es →
      ∃ s us, (machine st).run (init st) es = some (s, us) ∧ s.Unwedged := by
  intro h
  obtain ⟨s, us, hrun, hun⟩ := h defaultStation ctsDropped (by decide +kernel)
  have hwedged : (((machine defaultStation).run (init defaultStation) ctsDropped).map fun r =>
      decide r.1.Unwedged) = some false := by
    decide +kernel
  rw [hrun] at hwedged
  exact of_decide_eq_false (Option.some.inj hwedged) hun

end Ns2.Mac80211
