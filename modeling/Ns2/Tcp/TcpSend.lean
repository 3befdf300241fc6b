import Ns2.Tcp.TcpAgent

/-! What `send_much` keeps of the sequence numbers and the timers, and when it sends. -/

namespace Ns2.TcpAgent

variable {o : TcpOptions} {s s' : TcpAgent} {clock : TcpClock}

/-- Only the window and the variables of the quiescence option are different. -/
structure Recut (s s' : TcpAgent) : Prop where
  same : s' = { s with
    cwnd := s'.cwnd
    ssthresh := s'.ssthresh
    firstDecrease := s'.firstDecrease
    quiet := s'.quiet }
  ssthresh : 1 ≤ s.ssthresh → 1 ≤ s'.ssthresh

theorem Recut.refl (s : TcpAgent) : Recut s s := ⟨rfl, id⟩

theorem Recut.trans {t : TcpAgent} (h : Recut s s') (h' : Recut s' t) : Recut s t := by
  refine ⟨?_, fun hs => h'.ssthresh (h.ssthresh hs)⟩
  have heq := h'.same
  rw [h.same] at heq
  exact heq

theorem Recut.quiet (s : TcpAgent) (q : Quiescence) : Recut s { s with quiet := q } := ⟨rfl, id⟩

theorem slowdown_recut (o : TcpOptions) (x : SsthreshCut) (c : CwndCut) (s : TcpAgent) :
    Recut s (s.slowdown o x c) := by
  refine ⟨rfl, fun _ => ?_⟩
  rw [slowdown]
  dsimp only
  split_ifs <;> omega

theorem idle_recut (o : TcpOptions) (n : ℤ) (s : TcpAgent) : Recut s (s.idle o n) := by
  rw [idle]
  induction n.toNat with
  | zero => exact Recut.refl s
  | succ n ih =>
    rw [Function.iterate_succ_apply']
    exact ih.trans (slowdown_recut o .none .halfWithMin _)

theorem Recut.ite {c : Prop} [Decidable c] {t u : TcpAgent} (h : Recut s t) (h' : Recut s u) :
    Recut s (if c then t else u) := by
  split_ifs
  · exact h
  · exact h'

theorem limited_recut (o : TcpOptions) (s : TcpAgent) (q : Quiescence → Quiescence) :
    Recut s { (s.slowdown o .threeQuarter .none).slowdown o .none .halfWay with
      quiet := q ((s.slowdown o .threeQuarter .none).slowdown o .none .halfWay).quiet } :=
  ((slowdown_recut o _ _ s).trans (slowdown_recut o _ _ _)).trans (Recut.quiet _ _)

theorem idled_recut (o : TcpOptions) (n : ℤ) (s : TcpAgent) (q : Quiescence → Quiescence) :
    Recut s { idle o n (s.slowdown o .threeQuarter .none) with
      quiet := q (idle o n (s.slowdown o .threeQuarter .none)).quiet } :=
  ((slowdown_recut o _ _ s).trans (idle_recut o n _)).trans (Recut.quiet _ _)

theorem rttCounting_recut (o : TcpOptions) (clock : TcpClock) (s : TcpAgent) :
    Recut s (s.rttCounting o clock) := by
  have hidle : ∀ rtt, Recut s (s.rttIdle o clock rtt) := fun rtt =>
    Recut.ite ((Recut.quiet s _).trans (Recut.ite (idled_recut o _ _ fun q => { q with
      rttPrev := q.rttCount
      wUsed := 0 }) (Recut.refl _))) (Recut.refl s)
  have hused : ∀ t, Recut t (t.rttUsed o) := fun t =>
    Recut.ite (Recut.quiet t _) (Recut.ite ((Recut.quiet t _).trans
      (Recut.ite (limited_recut o _ fun q => { q with
        rttPrev := q.rttCount
        backoffs := q.backoffs + 1
        wUsed := 0 }) (Recut.refl _))) (Recut.refl t))
  exact (((hidle _).trans (Recut.quiet _ _)).trans (hused _)).trans
    (Recut.ite (Recut.refl _) (Recut.quiet _ _))

theorem processQoptionAfterSend_recut (o : TcpOptions) (clock : TcpClock) (s : TcpAgent) :
    Recut s (s.processQoptionAfterSend o clock) := by
  have hidle : Recut s (s.qoptionIdle o clock) :=
    Recut.ite (idled_recut o _ s fun q => { q with
      tPrev := clock.now
      wUsed := 0 }) (Recut.refl s)
  have hused : ∀ t, Recut t (t.qoptionUsed o clock) := fun t =>
    Recut.ite (Recut.quiet t _) (Recut.ite ((Recut.quiet t _).trans
      (Recut.ite (limited_recut o _ fun q => { q with
        tPrev := clock.now
        wUsed := 0 }) (Recut.refl _))) (Recut.refl t))
  exact Recut.ite (rttCounting_recut o clock s) ((hidle.trans (Recut.quiet _ _)).trans (hused _))

theorem qoption_recut (o : TcpOptions) (clock : TcpClock) (s : TcpAgent) :
    Recut s (if o.qOption then s.processQoptionAfterSend o clock else s) :=
  Recut.ite (processQoptionAfterSend_recut o clock s) (Recut.refl s)

theorem one_le_ratToInt {x : ℚ} (hx : 1 ≤ x) : 1 ≤ ratToInt x := by
  rw [ratToInt, if_pos (by linarith)]
  exact Int.le_floor.2 (by exact_mod_cast hx)

theorem one_le_window (hwnd : 1 ≤ o.wnd) (hcwnd : 1 ≤ s.cwnd) (hfrto : s.frto ≠ 2) :
    1 ≤ s.window o := by
  rw [window, if_neg hfrto]
  split_ifs
  · exact one_le_ratToInt hcwnd
  · exact one_le_ratToInt hwnd

/-- The sequence numbers without a lower bound on `t_seqno_`, and what the F-RTO states rely on. -/
structure Base (o : TcpOptions) (s : TcpAgent) : Prop where
  lastAck : s.lastAck = s.highestAck
  acked : s.highestAck ≤ s.maxseq
  sentUp : s.tSeqno ≤ s.maxseq + 1
  inData : s.tSeqno ≤ max s.curseq (s.highestAck + 1)
  sentData : s.maxseq < s.curseq ∨ s.maxseq ≤ s.highestAck + 1
  ssthresh : 1 ≤ s.ssthresh
  wndInit : 1 ≤ s.wndInit
  frto : s.frto = 0 ∨ s.frto = 1 ∨ s.frto = 2
  recover : s.frto = 1 → s.recover ≤ s.maxseq
  pipePrev : s.frto ≠ 0 → 1 ≤ s.pipePrev
  delsnd : o.overhead = 0 → s.delsndPending = false

structure Core (o : TcpOptions) (s : TcpAgent) : Prop extends Base o s where
  next : s.highestAck < s.tSeqno

/-- Nothing is outstanding and the window is open. -/
structure Open (s : TcpAgent) : Prop where
  next : s.tSeqno = s.highestAck + 1
  acked : s.maxseq = s.highestAck
  cwnd : 1 ≤ s.cwnd
  frto : s.frto = 0

/-- Between two events. -/
structure Inv (o : TcpOptions) (s : TcpAgent) : Prop extends Core o s where
  isOpen : s.rtxPending = false → s.Open
  data : s.highestAck + 1 < s.curseq → s.rtxPending = true ∨ s.delsndPending = true

def CanSend (o : TcpOptions) (s : TcpAgent) : Prop :=
  s.tSeqno ≤ s.highestAck + s.window o ∧ s.tSeqno < s.curseq

/-- Before `send_much`; what is not in order yet is so after the packet that it sends at once. -/
structure Ready (o : TcpOptions) (s : TcpAgent) : Prop extends Base o s where
  low : s.highestAck ≤ s.tSeqno
  next : s.highestAck < s.tSeqno ∨ o.overhead = 0 ∧ s.CanSend o
  isOpen : s.rtxPending = false → s.Open ∨ o.overhead = 0 ∧ s.CanSend o

theorem Base.recut (h : Base o s) (hr : Recut s s') : Base o s' := by
  have hs := hr.ssthresh h.ssthresh
  rw [hr.same]
  exact ⟨h.lastAck, h.acked, h.sentUp, h.inData, h.sentData, hs, h.wndInit, h.frto, h.recover,
    h.pipePrev, h.delsnd⟩

theorem output_eq (o : TcpOptions) (n : ℤ) (s : TcpAgent) : s.output o n = { s with
    curseq := if n = 0 ∧ o.syn then s.curseq + 1 else s.curseq
    sent := n :: s.sent
    maxseq := if n > s.maxseq then n else s.maxseq
    rtt := (s.output o n).rtt
    rtxPending := true } := by
  rw [output]
  by_cases h : ¬s.rtxPending = true ∨ decide (s.highestAck = s.maxseq) = true
  · dsimp only
    rw [if_pos h]
    rfl
  · have hpending : s.rtxPending = true := not_not.1 (not_or.1 h).1
    dsimp only
    rw [if_neg h]
    simp only [hpending]

theorem Base.sendNext (h : Base o s) (hlow : s.highestAck ≤ s.tSeqno) (hdata : s.tSeqno < s.curseq)
    (clock : TcpClock) :
    Core o (s.sendNext o clock) ∧ (s.sendNext o clock).rtxPending = true ∧
      (s.sendNext o clock).delsndPending = s.delsndPending ∧
      (s.sendNext o clock).sent = s.tSeqno :: s.sent ∧
      (s.sendNext o clock).tSeqno = s.tSeqno + 1 ∧
      (s.sendNext o clock).curseq = if s.tSeqno = 0 ∧ o.syn then s.curseq + 1 else s.curseq := by
  have hcurseq : s.curseq ≤ if s.tSeqno = 0 ∧ o.syn then s.curseq + 1 else s.curseq := by
    split_ifs <;> omega
  have hsent : Base o (s.output o s.tSeqno) := by
    rw [output_eq]
    refine ⟨h.lastAck, ?_, ?_, ?_, ?_, h.ssthresh, h.wndInit, h.frto, fun hf => ?_, h.pipePrev,
      h.delsnd⟩ <;> dsimp only
    · have := h.acked
      split_ifs <;> omega
    · have := h.sentUp
      split_ifs <;> omega
    · omega
    · have := h.sentData
      split_ifs at hcurseq ⊢ <;> omega
    · have := h.recover hf
      split_ifs <;> omega
  have hrecut := qoption_recut o clock (s.output o s.tSeqno)
  have hbase := hsent.recut hrecut
  rw [TcpAgent.sendNext]
  dsimp only
  rw [hrecut.same] at hbase ⊢
  rw [output_eq] at hbase ⊢
  refine ⟨⟨⟨hbase.lastAck, hbase.acked, ?_, ?_, hbase.sentData, hbase.ssthresh, hbase.wndInit,
    hbase.frto, hbase.recover, hbase.pipePrev, hbase.delsnd⟩, ?_⟩, rfl, rfl, rfl, rfl, rfl⟩
  · dsimp only
    split_ifs <;> omega
  · dsimp only
    omega
  · dsimp only
    omega

theorem Core.sendLoop (h : Core o s) (hrtx : s.rtxPending = true) {force : Bool} {fuel : ℕ}
    {npackets : ℤ} (hforce : force = true ∨ s.delsndPending = false)
    (hfuel : (s.curseq - s.tSeqno).toNat + (if s.tSeqno ≤ 0 then 1 else 0) < fuel)
    (clock : TcpClock) :
    ∃ s', s.sendLoop o clock force fuel npackets = some s' ∧ Core o s' ∧ s'.rtxPending = true ∧
      s.sent.length ≤ s'.sent.length := by
  induction fuel generalizing s npackets with
  | zero => cases hfuel
  | succ fuel ih =>
    rw [TcpAgent.sendLoop]
    by_cases hcan : s.tSeqno ≤ s.highestAck + s.window o ∧ s.tSeqno < s.curseq
    · rw [if_pos hcan]
      by_cases hnow : o.overhead = 0 ∨ force = true
      · rw [if_pos hnow]
        obtain ⟨hcore, hrtx', hdel, hsent, hnext, hcur⟩ := h.toBase.sendNext h.next.le hcan.2 clock
        have hgrown : s.sent.length ≤ (s.sendNext o clock).sent.length := by
          rw [hsent, List.length_cons]
          omega
        dsimp only
        by_cases hburst : o.maxburst ≠ 0 ∧ npackets + 1 = o.maxburst
        · rw [if_pos hburst]
          exact ⟨_, rfl, hcore, hrtx', hgrown⟩
        · rw [if_neg hburst]
          obtain ⟨s', heq, hs', hr, hlen⟩ := ih hcore hrtx' (hdel ▸ hforce)
            (by rw [hnext, hcur]; split_ifs at hfuel ⊢ <;> omega)
          exact ⟨s', heq, hs', hr, hgrown.trans hlen⟩
      · have hdel : s.delsndPending = false :=
          hforce.resolve_left fun hf => hnow (Or.inr hf)
        rw [if_neg hnow, if_neg (by simp [hdel])]
        refine ⟨_, rfl, ⟨⟨h.lastAck, h.acked, h.sentUp, h.inData, h.sentData, h.ssthresh, h.wndInit,
          h.frto, h.recover, h.pipePrev, fun hzero => absurd (Or.inl hzero) hnow⟩, h.next⟩, hrtx, le_rfl⟩
    · rw [if_neg hcan]
      exact ⟨s, rfl, h, hrtx, le_rfl⟩

theorem Ready.core (h : Ready o s) (hnot : ¬(o.overhead = 0 ∧ s.CanSend o)) : Core o s :=
  ⟨h.toBase, h.next.resolve_right hnot⟩

theorem Open.canSend (h : s.Open) (hwnd : 1 ≤ o.wnd) (hdata : s.highestAck + 1 < s.curseq) :
    s.CanSend o := by
  have hwin := one_le_window hwnd h.cwnd (by rw [h.frto]; decide)
  have := h.next
  exact ⟨by omega, by omega⟩

/-- After `send_much` the sequence numbers are in order, and a timer is pending when there is data; a
packet that can be sent is sent, now or when the delayed-send timer expires. -/
theorem Ready.sendMuch (h : Ready o s) (hwnd : 1 ≤ o.wnd) {force : Bool}
    (hforce : force = true → s.delsndPending = false) (clock : TcpClock) :
    ∃ s', s.sendMuch o clock force = some s' ∧ Inv o s' ∧
      (s.CanSend o → s.sent.length < s'.sent.length ∨
        force = false ∧ s'.delsndPending = true ∧ s'.CanSend o) := by
  rw [TcpAgent.sendMuch]
  by_cases hwait : ¬force = true ∧ s.delsndPending = true
  · rw [if_pos hwait]
    have hnot : ¬(o.overhead = 0 ∧ s.CanSend o) := by
      rintro ⟨hzero, -⟩
      rw [h.delsnd hzero] at hwait
      cases hwait.2
    refine ⟨s, rfl, ⟨h.core hnot, fun hrtx => (h.isOpen hrtx).resolve_right hnot,
      fun _ => Or.inr hwait.2⟩, fun hc => Or.inr ⟨by simpa using hwait.1, hwait.2, hc⟩⟩
  · rw [if_neg hwait, TcpAgent.sendLoop]
    have hdel : s.delsndPending = false := by
      cases force with
      | true => exact hforce rfl
      | false => simpa using hwait
    by_cases hcan : s.tSeqno ≤ s.highestAck + s.window o ∧ s.tSeqno < s.curseq
    · rw [if_pos hcan]
      by_cases hnow : o.overhead = 0 ∨ force = true
      · rw [if_pos hnow]
        obtain ⟨hcore, hrtx, hdel', hsent, hnext, hcur⟩ := h.toBase.sendNext h.low hcan.2 clock
        have hgrown : s.sent.length < (s.sendNext o clock).sent.length := by
          rw [hsent, List.length_cons]
          omega
        have hinv : ∀ s', Core o s' → s'.rtxPending = true → Inv o s' := fun s' hs' hr =>
          ⟨hs', fun hf => absurd (hr.symm.trans hf) (by decide), fun _ => Or.inl hr⟩
        dsimp only
        by_cases hburst : o.maxburst ≠ 0 ∧ (0 : ℤ) + 1 = o.maxburst
        · rw [if_pos hburst]
          exact ⟨_, rfl, hinv _ hcore hrtx, fun _ => Or.inl hgrown⟩
        · rw [if_neg hburst]
          have hfuel : ((s.sendNext o clock).curseq - (s.sendNext o clock).tSeqno).toNat +
              (if (s.sendNext o clock).tSeqno ≤ 0 then 1 else 0) <
                (s.curseq - s.tSeqno).toNat + 1 := by
            rw [hnext, hcur]
            split_ifs <;> omega
          obtain ⟨s', heq, hs', hr, hlen⟩ :=
            hcore.sendLoop hrtx (Or.inr (hdel'.trans hdel)) hfuel clock
          exact ⟨s', heq, hinv s' hs' hr, fun _ => Or.inl (hgrown.trans_le hlen)⟩
      · have hnot : ¬(o.overhead = 0 ∧ s.CanSend o) := fun hboth => hnow (Or.inl hboth.1)
        have hf : force = false := by simpa using fun hf => hnow (Or.inr hf)
        rw [if_neg hnow, if_neg (by simp [hdel])]
        have hcore := h.core hnot
        refine ⟨_, rfl, ⟨⟨⟨h.lastAck, h.acked, h.sentUp, h.inData, h.sentData, h.ssthresh, h.wndInit,
          h.frto, h.recover, h.pipePrev, fun hzero => absurd (Or.inl hzero) hnow⟩, hcore.next⟩,
          fun hrtx => ?_, fun _ => Or.inr rfl⟩, fun hc => Or.inr ⟨hf, rfl, hc⟩⟩
        have hopen := (h.isOpen hrtx).resolve_right hnot
        exact ⟨hopen.next, hopen.acked, hopen.cwnd, hopen.frto⟩
    · rw [if_neg hcan]
      have hnot : ¬(o.overhead = 0 ∧ s.CanSend o) := fun hboth => hcan hboth.2
      refine ⟨s, rfl, ⟨h.core hnot, fun hrtx => (h.isOpen hrtx).resolve_right hnot,
        fun hdata => ?_⟩, fun hc => absurd hc hcan⟩
      left
      by_contra hrtx
      have hopen := (h.isOpen (by simpa using hrtx)).resolve_right hnot
      exact hcan (hopen.canSend hwnd hdata)

end Ns2.TcpAgent
