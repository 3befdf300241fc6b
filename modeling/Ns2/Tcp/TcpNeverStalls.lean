import Ns2.Tcp.TcpBackoff
import Ns2.Tcp.TcpNewack

/-! A sender with data always has a timer pending whose expiry makes it transmit, in every run in
which no acknowledgement closes the window without a timer and the timer can always be backed off. -/

namespace Ns2.TcpAgent

variable {o : TcpOptions} {s s' : TcpAgent} {clock : TcpClock}

theorem Inv.recv (h : Inv o s) (hwnd : 1 ≤ o.wnd) {a : TcpAck} (hsent : a.seqno ≤ s.maxseq)
    (hmeets : a.stale = true ∨ s.AckMeets o a) (hrecv : s.recv o clock a = some s') : Inv o s' := by
  rw [TcpAgent.recv] at hrecv
  by_cases hstale : a.stale = true
  · rw [if_pos hstale] at hrecv
    cases hrecv
    exact h
  · rw [if_neg hstale] at hrecv
    have hmeets := hmeets.resolve_left hstale
    have hr := responded o a s
    generalize (if a.ecnecho = true ∧ o.ecn = true then s.ecn o a.seqno else s) = s₁ at hr hrecv
    have hlast : s₁.lastAck = s.lastAck := by
      rw [hr.same]
    dsimp only at hrecv
    rcases lt_trichotomy a.seqno s.lastAck with hold | hdup | hnew
    · have hfrto : (s₁.recvFrtoHelper a.seqno).lastAck = s.lastAck := by
        rw [← hlast, recvFrtoHelper]
        split_ifs <;> rfl
      rw [if_neg (by omega), if_neg (by omega)] at hrecv
      obtain ⟨t, ht, hinv⟩ := h.recvOld hwnd hmeets hold hr clock
      rw [ht] at hrecv
      cases hrecv
      exact hinv
    · have hfrto : (s₁.recvFrtoHelper a.seqno).lastAck = s.lastAck := by
        rw [← hlast, recvFrtoHelper]
        split_ifs <;> rfl
      rw [if_neg (by omega), if_pos (by omega)] at hrecv
      obtain ⟨t, ht, hinv⟩ := h.recvDup hwnd hmeets hdup hr clock
      rw [ht] at hrecv
      cases hrecv
      exact hinv
    · have hsame : s₁.recvFrtoHelper a.seqno = s₁ := by
        rw [recvFrtoHelper, if_neg]
        exact fun hf => hnew.ne' (hf.1.trans hlast)
      rw [hsame, if_pos (by omega)] at hrecv
      exact h.recvNew hwnd hmeets hnew hsent hr clock hrecv

/-- The window after a timeout. -/
structure TimedOut (o : TcpOptions) (s t : TcpAgent) : Prop extends Base o t where
  cwnd : 1 ≤ t.cwnd
  two : t.frto ≠ 2
  highestAck : t.highestAck = s.highestAck
  curseq : t.curseq = s.curseq
  sent : t.sent = s.sent

theorem TimedOut.enterFrto {t : TcpAgent} (h : TimedOut o s t) (hrec : t.recover ≤ t.maxseq)
    (hpipe : 1 ≤ t.pipePrev) (p : Prop) [Decidable p] :
    TimedOut o s (if p then { t with frto := 1 } else t) := by
  split_ifs
  · exact ⟨⟨h.lastAck, h.acked, h.sentUp, h.inData, h.sentData, h.ssthresh, h.wndInit,
      Or.inr (Or.inl rfl), fun _ => hrec, fun _ => hpipe, h.delsnd⟩, h.cwnd,
      (by decide : (1 : ℤ) ≠ 2), h.highestAck, h.curseq, h.sent⟩
  · exact h

theorem Base.timeoutWindow (h : Base o s) (hfrto : s.frto = 0) (hpipe : 1 ≤ s.pipePrev)
    (hcwnd : 1 ≤ s.cwnd) : TimedOut o s (s.timeoutWindow o) := by
  have htwo : s.frto ≠ 2 := by omega
  rw [TcpAgent.timeoutWindow]
  by_cases hidle : s.highestAck = s.maxseq ∧ ¬o.slowStartRestart = true
  · rw [if_pos hidle]
    exact ⟨h, hcwnd, htwo, rfl, rfl, rfl⟩
  · rw [if_neg hidle]
    have hinit : 1 ≤ if s.highestAck = -1 ∧ s.wndInitOption = 1 ∧ s.wndInit > 1 ∧
        o.bugfixSs = true then 1 else s.wndInit := by
      split_ifs
      · exact le_rfl
      · exact h.wndInit
    dsimp only
    generalize (if s.highestAck = -1 ∧ s.wndInitOption = 1 ∧ s.wndInit > 1 ∧
        o.bugfixSs = true then 1 else s.wndInit) = wndInit at hinit ⊢
    generalize (if s.highestAck = -1 ∧ s.wndInitOption = 2 then 1 else s.wndInitOption) = option
    have hcut : ∀ action x c, 1 ≤ cutCwnd o c { s with
        recover := s.maxseq
        wndInitOption := option
        wndInit := wndInit
        lastCwndAction := action } → TimedOut o s (TcpAgent.slowdown o x c { s with
        recover := s.maxseq
        wndInitOption := option
        wndInit := wndInit
        lastCwndAction := action }) := by
      intro action x c hone
      have hbase : Base o { s with
          recover := s.maxseq
          wndInitOption := option
          wndInit := wndInit
          lastCwndAction := action } :=
        ⟨h.lastAck, h.acked, h.sentUp, h.inData, h.sentData, h.ssthresh, hinit, h.frto,
          fun _ => le_rfl, h.pipePrev, h.delsnd⟩
      exact ⟨hbase.recut (slowdown_recut o x c _), hone, htwo, rfl, rfl, rfl⟩
    split
    · exact hcut s.lastCwndAction .none .one le_rfl
    · split
      · exact (hcut s.lastCwndAction .none .one le_rfl).enterFrto le_rfl hpipe _
      · exact (hcut .timeout .half .restart le_rfl).enterFrto le_rfl hpipe _

theorem Inv.timeout (h : Inv o s) (hwnd : 1 ≤ o.wnd) (clock : TcpClock) :
    ∃ s', TcpAgent.timeout o clock { s with rtxPending := false } = some s' ∧ Inv o s' ∧
      (s.highestAck + 1 < s.curseq → s.sent.length < s'.sent.length ∨
        s'.delsndPending = true ∧ s'.CanSend o) := by
  rw [TcpAgent.timeout]
  dsimp only
  have hpipe : ∀ win : ℤ, 1 ≤ if win > s.ssthresh then win else s.ssthresh := by
    intro win
    have := h.ssthresh
    split_ifs <;> omega
  have hcwnd : 1 ≤ if s.cwnd < 1 then 1 else s.cwnd := by
    split_ifs with hlow
    · exact le_rfl
    · exact not_lt.1 hlow
  have hpipe' := hpipe (window o { s with
    rtxPending := false
    frto := 0 })
  generalize (if window o { s with
    rtxPending := false
    frto := 0 } > s.ssthresh then window o { s with
    rtxPending := false
    frto := 0 } else s.ssthresh) = pipePrev at hpipe' ⊢
  generalize (if s.cwnd < 1 then 1 else s.cwnd) = cwnd at hcwnd ⊢
  have hbase : Base o { s with
      rtxPending := false
      frto := 0
      pipePrev := pipePrev
      cwnd := cwnd } :=
    ⟨h.lastAck, h.acked, h.sentUp, h.inData, h.sentData, h.ssthresh, h.wndInit, Or.inl rfl,
      fun hf => absurd hf (by decide : (0 : ℤ) ≠ 1), fun _ => hpipe', h.delsnd⟩
  have ht := hbase.timeoutWindow rfl hpipe' hcwnd
  generalize TcpAgent.timeoutWindow o { s with
      rtxPending := false
      frto := 0
      pipePrev := pipePrev
      cwnd := cwnd } = t at ht ⊢
  generalize hback : (!(decide (t.highestAck = t.maxseq) && o.restartBugfix)) = backoff
  have hcore := ht.toBase.resetRtxTimer backoff
  have hready : Ready o { t.resetRtxTimer o backoff with lastCwndAction := .timeout } :=
    ⟨⟨hcore.lastAck, hcore.acked, hcore.sentUp, hcore.inData, hcore.sentData, hcore.ssthresh,
      hcore.wndInit, hcore.frto, hcore.recover, hcore.pipePrev, hcore.delsnd⟩, hcore.next.le,
      Or.inl hcore.next, fun hrtx => by rw [resetRtxTimer_eq] at hrtx; cases hrtx⟩
  obtain ⟨s', heq, hinv, hsend⟩ := hready.sends hwnd clock
  refine ⟨s', heq, hinv, fun hdata => ?_⟩
  have hwin : 1 ≤ t.window o := one_le_window hwnd ht.cwnd ht.two
  have hcan : CanSend o { t.resetRtxTimer o backoff with lastCwndAction := .timeout } := by
    rw [resetRtxTimer_eq]
    refine ⟨?_, ?_⟩
    · change t.highestAck + 1 ≤ t.highestAck + t.window o
      omega
    · change t.highestAck + 1 < t.curseq
      rw [ht.highestAck, ht.curseq]
      exact hdata
  refine (hsend hcan).imp (fun hlen => ?_) id
  rw [resetRtxTimer_eq] at hlen
  exact ht.sent ▸ hlen

theorem Inv.more (h : Inv o s) {curseq : ℤ} (hmore : s.curseq ≤ curseq) (closed : Bool) :
    Ready o { s with
      curseq := curseq
      closed := closed } := by
  have hin := h.inData
  have hdata := h.sentData
  refine ⟨⟨h.lastAck, h.acked, h.sentUp, ?_, ?_, h.ssthresh, h.wndInit, h.frto, h.recover, h.pipePrev,
    h.delsnd⟩, h.next.le, Or.inl h.next, fun hrtx => Or.inl ?_⟩
  · dsimp only
    omega
  · dsimp only
    omega
  · have hopen := h.isOpen hrtx
    exact ⟨hopen.next, hopen.acked, hopen.cwnd, hopen.frto⟩

theorem le_sendmsg {nbytes : ℤ} (h : Sends o s (.sendmsg nbytes)) :
    s.curseq ≤ s.sendmsgCurseq o nbytes := by
  obtain ⟨⟨hsize, hbytes⟩, -⟩ := h
  rw [sendmsgCurseq]
  split_ifs with hend
  · exact hend.2
  all_goals
    have hdiv : 0 ≤ nbytes.tdiv o.size := by
      rcases hbytes with hpos | ⟨hend', hseq | hone⟩
      · exact Int.tdiv_nonneg hpos hsize.le
      · exact absurd ⟨hend', hseq⟩ hend
      · rw [hend', Int.neg_tdiv, Int.tdiv_eq_zero_of_lt (by decide) hone]
        rfl
    omega

theorem Inv.delsndExpire (h : Inv o s) (hwnd : 1 ≤ o.wnd) (clock : TcpClock) :
    ∃ s', TcpAgent.sendMuch o clock true { s with delsndPending := false } = some s' ∧ Inv o s' ∧
      (s.CanSend o → s.sent.length < s'.sent.length) := by
  have hready : Ready o { s with delsndPending := false } :=
    ⟨⟨h.lastAck, h.acked, h.sentUp, h.inData, h.sentData, h.ssthresh, h.wndInit, h.frto, h.recover,
      h.pipePrev, fun _ => rfl⟩, h.next.le, Or.inl h.next, fun hrtx => by
        have hopen := h.isOpen hrtx
        exact Or.inl ⟨hopen.next, hopen.acked, hopen.cwnd, hopen.frto⟩⟩
  obtain ⟨s', heq, hinv, hsend⟩ := hready.sendMuch hwnd (fun _ => rfl) clock
  exact ⟨s', heq, hinv, fun hcan => (hsend hcan).resolve_right fun hf => by cases hf.1⟩

theorem of_goesOn {r : Option TcpAgent} {u : Unit} (h : r.bind goesOn = some (s', u)) :
    r = some s' := by
  obtain ⟨t, ht, hgo⟩ := Option.bind_eq_some_iff.1 h
  rw [goesOn] at hgo
  split_ifs at hgo
  cases hgo
  exact ht

theorem Inv.step (h : Inv o s) (hwnd : 1 ≤ o.wnd) {e : TcpClock × TcpEvent}
    (hsends : Sends o s e.2) (hmeets : Meets o s e.2) {u : Unit}
    (hstep : (machine o).step s e = some (s', u)) : Inv o s' := by
  obtain ⟨clock, e⟩ := e
  have hdone : ∀ {r : Option TcpAgent}, (∃ t, r = some t ∧ Inv o t) →
      r.bind goesOn = some (s', u) → Inv o s' := by
    rintro r ⟨t, rfl, ht⟩ heq
    cases of_goesOn heq
    exact ht
  cases e with
  | sendmsg nbytes =>
    obtain ⟨t, ht, hinv, -⟩ := (h.more (le_sendmsg hsends) s.closed).sends hwnd clock
    exact hdone ⟨t, ht, hinv⟩ hstep
  | advanceby delta =>
    have hmore : s.curseq ≤ s.curseq + delta := le_add_of_nonneg_right hsends.1
    obtain ⟨t, ht, hinv, -⟩ :=
      (h.more hmore (if delta > 0 then false else s.closed)).sends hwnd clock
    exact hdone ⟨t, ht, hinv⟩ hstep
  | ack a => exact h.recv hwnd hsends.1 hmeets (of_goesOn hstep)
  | rtxExpire =>
    by_cases hrtx : s.rtxPending = true
    · obtain ⟨t, ht, hinv, -⟩ := h.timeout hwnd clock
      exact hdone ⟨t, ht, hinv⟩ ((if_pos hrtx).symm.trans hstep)
    · cases (if_neg hrtx).symm.trans hstep
  | delsndExpire =>
    by_cases hdel : s.delsndPending = true
    · obtain ⟨t, ht, hinv, -⟩ := h.delsndExpire hwnd clock
      exact hdone ⟨t, ht, hinv⟩ ((if_pos hdel).symm.trans hstep)
    · cases (if_neg hdel).symm.trans hstep

theorem Alive.step (h : Alive s.rtt) {e : TcpClock × TcpEvent} (hmeets : Meets o s e.2) {u : Unit}
    (hstep : (machine o).step s e = some (s', u)) : Alive s'.rtt := by
  obtain ⟨clock, e⟩ := e
  cases e with
  | sendmsg nbytes =>
    have hmore : Alive ({ s with curseq := s.sendmsgCurseq o nbytes } : TcpAgent).rtt := h
    exact hmore.sendMuch (of_goesOn hstep)
  | advanceby delta =>
    have hmore : Alive ({ s with
        curseq := s.curseq + delta
        closed := if delta > 0 then false else s.closed } : TcpAgent).rtt := h
    exact hmore.sendMuch (of_goesOn hstep)
  | ack a => exact h.recv hmeets (of_goesOn hstep)
  | rtxExpire =>
    by_cases hrtx : s.rtxPending = true
    · have hoff : Alive ({ s with rtxPending := false } : TcpAgent).rtt := h
      exact hoff.timeout hmeets (of_goesOn ((if_pos hrtx).symm.trans hstep))
    · cases (if_neg hrtx).symm.trans hstep
  | delsndExpire =>
    by_cases hdel : s.delsndPending = true
    · have hoff : Alive ({ s with delsndPending := false } : TcpAgent).rtt := h
      exact hoff.sendMuch (of_goesOn ((if_pos hdel).symm.trans hstep))
    · cases (if_neg hdel).symm.trans hstep

def atOnce (events : List TcpEvent) : List (TcpClock × TcpEvent) := events.map fun e => (⟨0, 100, 10⟩, e)

end Ns2.TcpAgent
