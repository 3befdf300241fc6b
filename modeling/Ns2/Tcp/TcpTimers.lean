import Ns2.Tcp.TcpSend

/-! A sender with data always has a timer pending, as long as no acknowledgement closes the window
while none is. -/

namespace Ns2.TcpAgent

variable {o : TcpOptions} {s s₁ s' : TcpAgent} {a : TcpAck} {clock : TcpClock}

/-- `ecn` cuts the window. -/
def EcnCuts (o : TcpOptions) (a : TcpAck) (s : TcpAgent) : Prop :=
  a.ecnecho = true ∧ o.ecn = true ∧ s.Responds a.seqno

instance (o : TcpOptions) (a : TcpAck) (s : TcpAgent) : Decidable (EcnCuts o a s) :=
  inferInstanceAs (Decidable (a.ecnecho = true ∧ o.ecn = true ∧ s.Responds a.seqno))

/-- The window that `ecn` leaves. -/
def ecnWindow (o : TcpOptions) (a : TcpAck) (s : TcpAgent) : ℚ :=
  if EcnCuts o a s then cutHalf o { s with recover := s.maxseq } else s.cwnd

/-- A duplicate acknowledgement that sets the retransmission timer when nothing is outstanding: one
that ELN or `dupack_action` reacts to, or that lets `send_one` send. -/
def Restarts (o : TcpOptions) (a : TcpAck) (s : TcpAgent) : Prop :=
  a.seqno = s.lastAck ∧
    if a.eln ∧ o.eln then s.dupacks + 1 = o.elnRxmitThresh ∧ a.seqno > s.elnLastRxmit
    else if s.dupacks + 1 = o.numdupacks ∧ ¬o.noFastRetrans then True
    else s.dupacks + 1 < o.numdupacks ∧ o.singledup ∧ s.highestAck + 1 < s.curseq ∧
      0 ≤ s.ecnWindow o a + s.dupacks

/-- `recv_newack_helper` opens the window, if the sender is limited by it. -/
def Opens (o : TcpOptions) (a : TcpAck) (s : TcpAgent) : Prop :=
  ¬s.ect ∨ ¬a.ecnecho ∨ o.oldEcn ∧ s.ecnBurst

/-- F-RTO takes a packet that is acknowledged already to be the next one. -/
def GoesBack (o : TcpOptions) (a : TcpAck) (s : TcpAgent) : Prop :=
  s.frto = 1 ∧ ¬EcnCuts o a s ∧ s.recover < a.seqno ∧ s.recover + 1 < s.curseq ∧
    ((s.recover + 1 : ℤ) : ℚ) < a.seqno + o.wnd

/-- `recv_newack_helper` leaves a window of a packet. -/
def KeepsOpen (o : TcpOptions) (a : TcpAck) (s : TcpAgent) : Prop :=
  s.frto = 2 ∨ o.delayGrowth = true ∧ a.seqno = 0 ∨ 1 ≤ s.ecnWindow o a ∨
    0 ≤ s.ecnWindow o a ∧ s.Opens o a

instance (o : TcpOptions) (a : TcpAck) (s : TcpAgent) : Decidable (Restarts o a s) := by
  unfold Restarts
  infer_instance

instance (o : TcpOptions) (a : TcpAck) (s : TcpAgent) : Decidable (GoesBack o a s) := by
  unfold GoesBack
  infer_instance

instance (o : TcpOptions) (a : TcpAck) (s : TcpAgent) : Decidable (KeepsOpen o a s) := by
  unfold KeepsOpen Opens
  infer_instance

/-- `rtt_backoff` can double `t_backoff_`, an `int`. -/
def CanBackOff (o : TcpOptions) (s : TcpAgent) : Prop := o.rfc2988 = true → s.rtt.tBackoff < 2 ^ 30

instance (o : TcpOptions) (s : TcpAgent) : Decidable (CanBackOff o s) :=
  inferInstanceAs (Decidable (o.rfc2988 = true → s.rtt.tBackoff < 2 ^ 30))

/-- The conditions on an acknowledgement: without a timer, ECN leaves a window of a packet; F-RTO
does not go back behind it; the window is open when the quiescence option cancels the timer; and ECN
can back off the timer. -/
structure AckMeets (o : TcpOptions) (a : TcpAck) (s : TcpAgent) : Prop where
  options : o.timerfix = false ∨ o.qOption = true → 0 ≤ o.increaseNum ∧ 0 ≤ o.maxcwnd
  ecn : s.rtxPending = false → EcnCuts o a s → 1 ≤ s.ecnWindow o a ∨ s.Restarts o a
  frto : s.lastAck < a.seqno → GoesBack o a s → o.overhead = 0 ∧ s.recover + 1 = a.seqno
  quiet : s.lastAck < a.seqno → o.qOption = true → s.curseq = a.seqno + 1 → KeepsOpen o a s
  backoff : EcnCuts o a s → s.cwnd ≤ 1 → s.rtt.ecnBackoff = true → CanBackOff o s

instance (o : TcpOptions) (a : TcpAck) (s : TcpAgent) : Decidable (AckMeets o a s) :=
  decidable_of_iff ((o.timerfix = false ∨ o.qOption = true → 0 ≤ o.increaseNum ∧ 0 ≤ o.maxcwnd) ∧
      (s.rtxPending = false → EcnCuts o a s → 1 ≤ s.ecnWindow o a ∨ s.Restarts o a) ∧
      (s.lastAck < a.seqno → GoesBack o a s → o.overhead = 0 ∧ s.recover + 1 = a.seqno) ∧
      (s.lastAck < a.seqno → o.qOption = true → s.curseq = a.seqno + 1 → KeepsOpen o a s) ∧
      (EcnCuts o a s → s.cwnd ≤ 1 → s.rtt.ecnBackoff = true → CanBackOff o s))
    ⟨fun h => ⟨h.1, h.2.1, h.2.2.1, h.2.2.2.1, h.2.2.2.2⟩,
      fun h => ⟨h.options, h.ecn, h.frto, h.quiet, h.backoff⟩⟩

/-- `curseq_` is an `int`, and the packet with the SYN adds one to it. -/
def Fits (o : TcpOptions) (curseq : ℤ) : Prop := curseq + (if o.syn then 1 else 0) < 2 ^ 31

instance (o : TcpOptions) (curseq : ℤ) : Decidable (Fits o curseq) :=
  inferInstanceAs (Decidable (curseq + (if o.syn then 1 else 0) < 2 ^ 31))

/-- What callers promise. -/
def Sends (o : TcpOptions) (s : TcpAgent) : TcpEvent → Prop
  | .sendmsg nbytes =>
    (0 < o.size ∧ (0 ≤ nbytes ∨ nbytes = -1 ∧ (s.curseq ≤ tcpMaxseq ∨ 1 < o.size))) ∧
      Fits o (s.sendmsgCurseq o nbytes)
  | .advanceby delta => 0 ≤ delta ∧ Fits o (s.curseq + delta)
  | .ack a => a.seqno ≤ s.maxseq ∧ Fits o s.curseq
  | .rtxExpire => Fits o s.curseq
  | .delsndExpire => Fits o s.curseq

/-- A timeout backs off the timer, except that of a sender with nothing outstanding and
`restart_bugfix_`. -/
def Meets (o : TcpOptions) (s : TcpAgent) : TcpEvent → Prop
  | .ack a => a.stale = true ∨ s.AckMeets o a
  | .rtxExpire => s.highestAck = s.maxseq ∧ o.restartBugfix = true ∨ CanBackOff o s
  | _ => True

instance (o : TcpOptions) (s : TcpAgent) (e : TcpEvent) : Decidable (Sends o s e) := by
  cases e <;> (unfold Sends; infer_instance)

instance (o : TcpOptions) (s : TcpAgent) (e : TcpEvent) : Decidable (Meets o s e) := by
  cases e <;> (unfold Meets; infer_instance)

/-- After the response to ECN. -/
structure Responded (o : TcpOptions) (a : TcpAck) (s s₁ : TcpAgent) : Prop where
  same : s₁ = { s with
    cwnd := s₁.cwnd
    ssthresh := s₁.ssthresh
    firstDecrease := s₁.firstDecrease
    recover := s₁.recover
    lastCwndAction := s₁.lastCwndAction
    rtt := s₁.rtt }
  cwnd : s₁.cwnd = s.ecnWindow o a
  ssthresh : 1 ≤ s.ssthresh → 1 ≤ s₁.ssthresh
  recover : s₁.recover = if EcnCuts o a s then s.maxseq else s.recover
  action : EcnCuts o a s → s₁.lastCwndAction = .ecn

theorem ecnRtt_eq (o : TcpOptions) (s : TcpAgent) :
    s.ecnRtt o = { s with rtt := (s.ecnRtt o).rtt } := by
  rw [ecnRtt]
  split_ifs <;> rfl

theorem responded (o : TcpOptions) (a : TcpAck) (s : TcpAgent) :
    Responded o a s (if a.ecnecho ∧ o.ecn then s.ecn o a.seqno else s) := by
  by_cases hecn : a.ecnecho = true ∧ o.ecn = true
  · rw [if_pos hecn, TcpAgent.ecn]
    by_cases hresp : s.Responds a.seqno
    · have hcuts : EcnCuts o a s := ⟨hecn.1, hecn.2, hresp⟩
      rw [if_pos hresp, ecnRtt_eq]
      refine ⟨rfl, ?_, fun h => (slowdown_recut o .half .half _).ssthresh h, ?_, fun _ => rfl⟩
      · rw [ecnWindow, if_pos hcuts]
        rfl
      · rw [if_pos hcuts]
        rfl
    · have hcuts : ¬EcnCuts o a s := fun h => hresp h.2.2
      rw [if_neg hresp]
      exact ⟨rfl, (if_neg hcuts).symm, id, (if_neg hcuts).symm, fun h => absurd h hcuts⟩
  · have hcuts : ¬EcnCuts o a s := fun h => hecn ⟨h.1, h.2.1⟩
    rw [if_neg hecn]
    exact ⟨rfl, (if_neg hcuts).symm, id, (if_neg hcuts).symm, fun h => absurd h hcuts⟩

theorem Responded.core (hr : Responded o a s s₁) (h : Core o s) : Core o s₁ := by
  have hs := hr.ssthresh h.ssthresh
  have hrec := hr.recover
  rw [hr.same]
  refine ⟨⟨h.lastAck, h.acked, h.sentUp, h.inData, h.sentData, hs, h.wndInit, h.frto, fun hf => ?_,
    h.pipePrev, h.delsnd⟩, h.next⟩
  dsimp only
  rw [hrec]
  split_ifs
  · exact le_rfl
  · exact h.recover hf

theorem Responded.isOpen (hr : Responded o a s s₁) (h : Inv o s) (hmeets : s.AckMeets o a)
    (hrtx : s.rtxPending = false) : s₁.Open ∨ EcnCuts o a s ∧ s.Restarts o a := by
  have hopen := h.isOpen hrtx
  have hs : 1 ≤ s.ecnWindow o a → s₁.Open := by
    intro hwin
    rw [← hr.cwnd] at hwin
    rw [hr.same]
    exact ⟨hopen.next, hopen.acked, hwin, hopen.frto⟩
  by_cases hcuts : EcnCuts o a s
  · exact (hmeets.ecn hrtx hcuts).imp hs fun h => ⟨hcuts, h⟩
  · left
    apply hs
    rw [ecnWindow, if_neg hcuts]
    exact hopen.cwnd

theorem Core.ready (h : Core o s) (hopen : s.rtxPending = false → s.Open) : Ready o s :=
  ⟨h.toBase, h.next.le, Or.inl h.next, fun hrtx => Or.inl (hopen hrtx)⟩

theorem Core.quiet (h : Core o s) (q : Quiescence) : Core o { s with quiet := q } :=
  ⟨h.toBase.recut (Recut.quiet s q), h.next⟩

theorem Core.dupacks (h : Core o s) (n : ℤ) : Core o { s with dupacks := n } :=
  ⟨⟨h.lastAck, h.acked, h.sentUp, h.inData, h.sentData, h.ssthresh, h.wndInit, h.frto, h.recover,
    h.pipePrev, h.delsnd⟩, h.next⟩

theorem processQoptionAfterAck_eq (o : TcpOptions) (n : ℤ) (s : TcpAgent) :
    ∃ q, s.processQoptionAfterAck o n = { s with quiet := q } := by
  rw [processQoptionAfterAck]
  split_ifs
  · exact ⟨_, rfl⟩
  · exact ⟨_, rfl⟩
  · exact ⟨s.quiet, rfl⟩
  · exact ⟨s.quiet, rfl⟩

theorem Ready.sends (h : Ready o s) (hwnd : 1 ≤ o.wnd) (clock : TcpClock) :
    ∃ s', s.sendMuch o clock false = some s' ∧ Inv o s' ∧
      (s.CanSend o → s.sent.length < s'.sent.length ∨ s'.delsndPending = true ∧ s'.CanSend o) := by
  have hnot : false = true → s.delsndPending = false := fun hf => absurd hf (by decide)
  obtain ⟨s', heq, hs', hsend⟩ := h.sendMuch hwnd hnot clock
  exact ⟨s', heq, hs', fun hcan => (hsend hcan).imp id And.right⟩

/-- The end of `recv`: either `send_much` is called, or nothing has changed that it would see. -/
theorem Ready.recvTail (h : Ready o s) (hwnd : 1 ≤ o.wnd) {ack : ℤ}
    (hinv : ack < s.lastAck → Inv o s) (clock : TcpClock) :
    ∃ s', s.recvTail o clock ack = some s' ∧ Inv o s' := by
  obtain ⟨q, hq⟩ : ∃ q, (if o.qOption ∧ o.enblRTTCtr then s.processQoptionAfterAck o ack else s) =
      { s with quiet := q } := by
    split_ifs
    · exact processQoptionAfterAck_eq o ack s
    · exact ⟨s.quiet, rfl⟩
  rw [TcpAgent.recvTail, hq]
  dsimp only
  by_cases hsend : ack ≥ s.lastAck ∨ o.aggressiveMaxburst = true
  · rw [if_pos hsend]
    have hready : Ready o { s with quiet := q } :=
      ⟨h.toBase.recut (Recut.quiet s q), h.low, h.next, fun hrtx => (h.isOpen hrtx).imp
        (fun hopen => ⟨hopen.next, hopen.acked, hopen.cwnd, hopen.frto⟩) id⟩
    obtain ⟨s', heq, hs', -⟩ := hready.sends hwnd clock
    exact ⟨s', heq, hs'⟩
  · rw [if_neg hsend]
    rw [not_or, ge_iff_le, not_le] at hsend
    have hs := hinv hsend.1
    refine ⟨_, rfl, hs.toCore.quiet q, fun hrtx => ?_, hs.data⟩
    have hopen := hs.isOpen hrtx
    exact ⟨hopen.next, hopen.acked, hopen.cwnd, hopen.frto⟩

theorem resetRtxTimer_eq (o : TcpOptions) (backoff : Bool) (s : TcpAgent) :
    s.resetRtxTimer o backoff = { s with
      tSeqno := s.highestAck + 1
      rtt := (s.resetRtxTimer o backoff).rtt
      rtxPending := true } := by
  cases backoff <;> rfl

theorem Base.resetRtxTimer (h : Base o s) (backoff : Bool) : Core o (s.resetRtxTimer o backoff) := by
  rw [resetRtxTimer_eq]
  refine ⟨⟨h.lastAck, h.acked, ?_, le_max_right _ _, h.sentData, h.ssthresh, h.wndInit, h.frto,
    h.recover, h.pipePrev, h.delsnd⟩, ?_⟩
  · have := h.acked
    change s.highestAck + 1 ≤ s.maxseq + 1
    omega
  · change s.highestAck < s.highestAck + 1
    omega

theorem Core.slowdown (h : Core o s) {recover : ℤ} (hrec : s.frto = 1 → recover ≤ s.maxseq)
    (action : CwndAction) (x : SsthreshCut) (c : CwndCut) :
    Core o (TcpAgent.slowdown o x c { s with
      recover := recover
      lastCwndAction := action }) := by
  have hbase : Base o { s with
      recover := recover
      lastCwndAction := action } :=
    ⟨h.lastAck, h.acked, h.sentUp, h.inData, h.sentData, h.ssthresh, h.wndInit, h.frto, hrec,
      h.pipePrev, h.delsnd⟩
  have hrecut := slowdown_recut o x c { s with
      recover := recover
      lastCwndAction := action }
  refine ⟨hbase.recut hrecut, ?_⟩
  rw [hrecut.same]
  exact h.next

theorem Core.dupackAction (h : Core o s) :
    s.dupackAction o = s ∧ ¬(o.ecn = true ∧ s.lastCwndAction = .ecn) ∨
      Core o (s.dupackAction o) ∧ (s.dupackAction o).rtxPending = true := by
  have htahoe : Core o (TcpAgent.slowdown o .half .one { s with
      recover := s.maxseq
      lastCwndAction := .dupack }) := h.slowdown (fun _ => le_rfl) .dupack .half .one
  rw [TcpAgent.dupackAction]
  split_ifs with h₁ h₂ h₃
  · exact Or.inr ⟨htahoe.toBase.resetRtxTimer false, rfl⟩
  · exact Or.inr ⟨(h.slowdown h.recover .dupack .none .one).toBase.resetRtxTimer false, rfl⟩
  · exact Or.inl ⟨rfl, h₂⟩
  · exact Or.inr ⟨htahoe.toBase.resetRtxTimer false, rfl⟩

/-- `send_one` leaves everything as it is, or it sends a packet and the timer is set. -/
theorem Core.sendOne (h : Core o s) (clock : TcpClock) :
    s.sendOne o clock = s ∧ ¬((s.tSeqno : ℚ) ≤ s.highestAck + o.wnd ∧ s.tSeqno < s.curseq ∧
        (s.tSeqno : ℚ) ≤ s.highestAck + s.cwnd + s.dupacks) ∨
      Core o (s.sendOne o clock) ∧ (s.sendOne o clock).rtxPending = true := by
  rw [TcpAgent.sendOne]
  split_ifs with hsend
  · obtain ⟨hcore, hrtx, -⟩ := h.toBase.sendNext h.next.le hsend.2.1 clock
    exact Or.inr ⟨hcore, hrtx⟩
  · exact Or.inl ⟨rfl, hsend⟩

theorem recvDupack_lastAck (o : TcpOptions) (clock : TcpClock) (s : TcpAgent) :
    (s.recvDupack o clock).lastAck = s.lastAck := by
  have haction : ∀ t : TcpAgent, (t.dupackAction o).lastAck = t.lastAck := by
    intro t
    rw [TcpAgent.dupackAction]
    split_ifs <;> rfl
  have hone : ∀ t : TcpAgent, (t.sendOne o clock).lastAck = t.lastAck := by
    intro t
    rw [TcpAgent.sendOne]
    split_ifs
    · rw [TcpAgent.sendNext]
      dsimp only
      rw [(qoption_recut o clock _).same, output_eq]
    · rfl
  rw [TcpAgent.recvDupack]
  dsimp only
  split_ifs
  · exact haction _
  · exact hone _
  · rfl

theorem Core.recvDupack (h : Core o s) (hwnd : 1 ≤ o.wnd)
    (hopen : s.rtxPending = false → s.Open ∨ s.tSeqno = s.highestAck + 1 ∧
      (o.ecn = true ∧ s.lastCwndAction = .ecn) ∧
      if s.dupacks + 1 = o.numdupacks ∧ ¬o.noFastRetrans then True
      else s.dupacks + 1 < o.numdupacks ∧ o.singledup ∧ s.highestAck + 1 < s.curseq ∧
        0 ≤ s.cwnd + s.dupacks) (clock : TcpClock) :
    Core o (s.recvDupack o clock) ∧
      ((s.recvDupack o clock).rtxPending = false → (s.recvDupack o clock).Open) := by
  have hcore := h.dupacks (s.dupacks + 1)
  have hdup : s.Open → Open { s with dupacks := s.dupacks + 1 } :=
    fun ho => ⟨ho.next, ho.acked, ho.cwnd, ho.frto⟩
  have hset : ∀ {t : TcpAgent}, Core o t ∧ t.rtxPending = true →
      Core o t ∧ (t.rtxPending = false → t.Open) :=
    fun ht => ⟨ht.1, fun hf => absurd (ht.2.symm.trans hf) (by decide)⟩
  rw [TcpAgent.recvDupack]
  dsimp only
  by_cases hfast : s.dupacks + 1 = o.numdupacks ∧ ¬o.noFastRetrans = true
  · rw [if_pos hfast]
    rcases hcore.dupackAction with ⟨heq, hnot⟩ | ht
    · rw [heq]
      refine ⟨hcore, fun hrtx => ?_⟩
      rcases hopen hrtx with ho | ⟨-, hecn, -⟩
      · exact hdup ho
      · exact absurd hecn hnot
    · exact hset ht
  · rw [if_neg hfast]
    by_cases hone : s.dupacks + 1 < o.numdupacks ∧ o.singledup = true
    · rw [if_pos hone]
      rcases hcore.sendOne clock with ⟨heq, hnot⟩ | ht
      · rw [heq]
        refine ⟨hcore, fun hrtx => ?_⟩
        rcases hopen hrtx with ho | ⟨hnext, -, hif⟩
        · exact hdup ho
        · rw [if_neg hfast] at hif
          refine absurd ⟨?_, ?_, ?_⟩ hnot
          · dsimp only
            rw [hnext]
            push_cast
            linarith
          · dsimp only
            omega
          · dsimp only
            rw [hnext]
            push_cast
            linarith [hif.2.2.2]
      · exact hset ht
    · rw [if_neg hone]
      refine ⟨hcore, fun hrtx => ?_⟩
      rcases hopen hrtx with ho | ⟨-, -, hif⟩
      · exact hdup ho
      · rw [if_neg hfast] at hif
        exact absurd ⟨hif.1, hif.2.1⟩ hone

theorem Core.recvFrtoHelper (h : Core o s) (ack : ℤ) : Core o (s.recvFrtoHelper ack) := by
  rw [TcpAgent.recvFrtoHelper]
  split_ifs
  · refine ⟨⟨h.lastAck, h.acked, ?_, le_max_right _ _, h.sentData, h.ssthresh, h.wndInit,
      Or.inl rfl, fun hf => ?_, fun hf => absurd rfl hf, h.delsnd⟩, ?_⟩
    · have := h.acked
      dsimp only
      omega
    · cases hf
    · dsimp only
      omega
  · exact h

theorem Core.tcpEln (h : Core o s) (hwnd : 1 ≤ o.wnd) {ack : ℤ}
    (hopen : s.rtxPending = false → s.Open ∨ s.dupacks + 1 = o.elnRxmitThresh ∧ ack > s.elnLastRxmit)
    (clock : TcpClock) : ∃ s', s.tcpEln o clock ack = some s' ∧ Inv o s' := by
  rw [TcpAgent.tcpEln]
  dsimp only
  by_cases heln : s.dupacks + 1 = o.elnRxmitThresh ∧ ack > s.elnLastRxmit
  · rw [if_pos heln, output_eq]
    have hlast := h.lastAck
    refine ⟨_, rfl, ⟨⟨h.lastAck, ?_, ?_, ?_, ?_, h.ssthresh, h.wndInit, h.frto, fun hf => ?_,
      h.pipePrev, h.delsnd⟩, h.next⟩, fun hf => ?_, fun _ => Or.inl rfl⟩
    · have := h.acked
      dsimp only
      split_ifs <;> omega
    · have := h.sentUp
      dsimp only
      split_ifs <;> omega
    · have := h.inData
      dsimp only
      split_ifs <;> omega
    · have := h.sentData
      dsimp only
      split_ifs <;> omega
    · have := h.recover hf
      dsimp only
      split_ifs <;> omega
    · cases hf
  · rw [if_neg heln]
    have hready := (h.dupacks (s.dupacks + 1)).ready fun hrtx => by
      have ho := (hopen hrtx).resolve_right heln
      exact ⟨ho.next, ho.acked, ho.cwnd, ho.frto⟩
    obtain ⟨s', heq, hs', -⟩ := hready.sends hwnd clock
    exact ⟨s', heq, hs'⟩

theorem Inv.recvDup (h : Inv o s) (hwnd : 1 ≤ o.wnd) (hmeets : s.AckMeets o a)
    (hdup : a.seqno = s.lastAck) (hr : Responded o a s s₁) (clock : TcpClock) :
    ∃ s', (if a.eln ∧ o.eln then (s₁.recvFrtoHelper a.seqno).tcpEln o clock a.seqno
      else ((s₁.recvFrtoHelper a.seqno).recvDupack o clock).recvTail o clock a.seqno) = some s' ∧
      Inv o s' := by
  have hcore := (hr.core h.toCore).recvFrtoHelper a.seqno
  have hsame : s.rtxPending = false → s₁.recvFrtoHelper a.seqno = s₁ := by
    intro hrtx
    rw [TcpAgent.recvFrtoHelper, if_neg]
    rw [hr.same]
    exact fun hf => hf.2 (h.isOpen hrtx).frto
  have hrtx₁ : (s₁.recvFrtoHelper a.seqno).rtxPending = s.rtxPending := by
    rw [TcpAgent.recvFrtoHelper, hr.same]
    split_ifs <;> rfl
  have hrestart : (s₁.recvFrtoHelper a.seqno).rtxPending = false →
      s₁.Open ∨ EcnCuts o a s ∧ s.Restarts o a :=
    fun hrtx => hr.isOpen h hmeets (hrtx₁ ▸ hrtx)
  by_cases heln : a.eln = true ∧ o.eln = true
  · rw [if_pos heln]
    refine hcore.tcpEln hwnd (fun hrtx => ?_) clock
    rw [hsame (hrtx₁ ▸ hrtx)]
    refine (hrestart hrtx).imp id fun hres => ?_
    have hthresh := hres.2.2
    rw [if_pos heln] at hthresh
    rw [hr.same]
    exact hthresh
  · rw [if_neg heln]
    obtain ⟨hcore', hopen'⟩ := hcore.recvDupack hwnd (fun hrtx => by
      rw [hsame (hrtx₁ ▸ hrtx)]
      refine (hrestart hrtx).imp id fun hres => ?_
      have hthresh := hres.2.2
      rw [if_neg heln, ← hr.cwnd] at hthresh
      refine ⟨?_, ⟨hres.1.2.1, hr.action hres.1⟩, ?_⟩
      · rw [hr.same]
        exact (h.isOpen (hrtx₁ ▸ hrtx)).next
      · rw [hr.same]
        exact hthresh) clock
    refine (hcore'.ready hopen').recvTail hwnd (fun hlt => ?_) clock
    rw [recvDupack_lastAck, TcpAgent.recvFrtoHelper, hr.same] at hlt
    split_ifs at hlt
    · exact absurd hdup hlt.ne
    · exact absurd hdup hlt.ne

theorem Inv.recvOld (h : Inv o s) (hwnd : 1 ≤ o.wnd) (hmeets : s.AckMeets o a)
    (hold : a.seqno < s.lastAck) (hr : Responded o a s s₁) (clock : TcpClock) :
    ∃ s', (s₁.recvFrtoHelper a.seqno).recvTail o clock a.seqno = some s' ∧ Inv o s' := by
  have hsame : s₁.recvFrtoHelper a.seqno = s₁ := by
    rw [TcpAgent.recvFrtoHelper, if_neg]
    rw [hr.same]
    exact fun hf => hold.ne hf.1
  have hcore := hr.core h.toCore
  have hopen : s₁.rtxPending = false → s₁.Open := by
    intro hrtx
    rw [hr.same] at hrtx
    exact (hr.isOpen h hmeets hrtx).resolve_right fun hres => hold.ne hres.2.1
  rw [hsame]
  refine (hcore.ready hopen).recvTail hwnd (fun _ => ⟨hcore, hopen, fun hdata => ?_⟩) clock
  rw [hr.same] at hdata ⊢
  exact h.data hdata

end Ns2.TcpAgent
