import Ns2.Tcp.TcpTimers

/-! The sender does not exit as long as every backoff finds a multiplier that an `int` can double. -/

namespace Ns2.TcpAgent

variable {o : TcpOptions} {s s' : TcpAgent} {clock : TcpClock}

/-- The timeout is positive, and `rtt_timeout` has not exited. -/
structure Alive (r : RtxBackoff) : Prop where
  backoff : 0 < r.tBackoff
  running : r.exited = false

theorem Alive.setRtxTimer (h : Alive s.rtt) : Alive s.setRtxTimer.rtt := by
  refine ⟨h.backoff, ?_⟩
  have hpos := h.backoff
  change (s.rtt.exited || decide (s.rtt.tBackoff < 0)) = false
  rw [h.running, decide_eq_false (by omega)]
  rfl

theorem Alive.rttBackoff (h : Alive s.rtt) (hcan : CanBackOff o s) : Alive (s.rttBackoff o).rtt := by
  refine ⟨?_, h.running⟩
  have hpos := h.backoff
  rw [TcpAgent.rttBackoff]
  dsimp only
  split_ifs with hdouble
  · have hfits : s.rtt.tBackoff < 2 ^ 30 := by
      rcases hdouble with hsmall | hrfc
      · omega
      · exact hcan hrfc
    rw [int32_of_mem (by omega) (by omega)]
    omega
  · exact hpos

theorem Alive.resetRtxTimer (h : Alive s.rtt) {backoff : Bool}
    (hcan : backoff = true → CanBackOff o s) : Alive (s.resetRtxTimer o backoff).rtt := by
  have hset : Alive (if backoff then s.rttBackoff o else s).setRtxTimer.rtt := by
    split_ifs with hback
    · exact (h.rttBackoff (hcan hback)).setRtxTimer
    · exact h.setRtxTimer
  exact ⟨hset.backoff, hset.running⟩

theorem Alive.output (h : Alive s.rtt) (o : TcpOptions) (n : ℤ) : Alive (s.output o n).rtt := by
  have htimed : Alive (if n > s.maxseq ∧ ¬s.rtt.rttActive then
      { s.rtt with
        rttActive := true
        rttSeq := if n > s.rtt.rttSeq then n else s.rtt.rttSeq }
      else s.rtt) := by
    split
    · exact ⟨h.backoff, h.running⟩
    · exact h
  rw [TcpAgent.output]
  generalize (if n > s.maxseq ∧ ¬s.rtt.rttActive then
      { s.rtt with
        rttActive := true
        rttSeq := if n > s.rtt.rttSeq then n else s.rtt.rttSeq }
      else s.rtt) = timed at htimed ⊢
  dsimp only
  split
  · exact Alive.setRtxTimer htimed
  · exact htimed

theorem Recut.rtt (hr : Recut s s') : s'.rtt = s.rtt := by
  rw [hr.same]

theorem Alive.sendNext (h : Alive s.rtt) (o : TcpOptions) (clock : TcpClock) :
    Alive (s.sendNext o clock).rtt := by
  have hrecut := qoption_recut o clock (s.output o s.tSeqno)
  change Alive (if o.qOption then (s.output o s.tSeqno).processQoptionAfterSend o clock
    else s.output o s.tSeqno).rtt
  rw [hrecut.rtt]
  exact h.output o _

theorem Alive.sendLoop (h : Alive s.rtt) {force : Bool} {fuel : ℕ} {npackets : ℤ}
    (hloop : s.sendLoop o clock force fuel npackets = some s') : Alive s'.rtt := by
  induction fuel generalizing s npackets with
  | zero => cases hloop
  | succ fuel ih =>
    rw [TcpAgent.sendLoop] at hloop
    dsimp only at hloop
    split_ifs at hloop
    · cases hloop
      exact h.sendNext o clock
    · exact ih (h.sendNext o clock) hloop
    · exact ih h hloop
    · cases hloop
      exact h
    · cases hloop
      exact h

theorem Alive.sendMuch (h : Alive s.rtt) {force : Bool}
    (hsend : s.sendMuch o clock force = some s') : Alive s'.rtt := by
  rw [TcpAgent.sendMuch] at hsend
  split_ifs at hsend
  · cases hsend
    exact h
  · exact h.sendLoop hsend

theorem Alive.newtimer (h : Alive s.rtt) (ack : ℤ) : Alive (s.newtimer ack).rtt := by
  rw [TcpAgent.newtimer]
  split_ifs
  · exact h.setRtxTimer
  · exact h

theorem Alive.endBackoff {r : RtxBackoff} (h : Alive r) (a : TcpAck) (ect : Bool) :
    Alive (TcpAgent.endBackoff a ect r) := by
  rw [TcpAgent.endBackoff]
  split_ifs
  · exact ⟨Int.one_pos, h.running⟩
  · exact h

theorem Alive.newackRtt {r : RtxBackoff} (h : Alive r) (o : TcpOptions) (a : TcpAck) (ect : Bool) :
    Alive (TcpAgent.newackRtt o a ect r) := by
  have hstamp : Alive (if o.tsOption ∧ o.tsResetRTO then TcpAgent.endBackoff a ect r else r) := by
    split_ifs
    · exact h.endBackoff a ect
    · exact h
  rw [TcpAgent.newackRtt]
  generalize (if o.tsOption ∧ o.tsResetRTO then TcpAgent.endBackoff a ect r else r) = stamp at hstamp ⊢
  dsimp only
  split_ifs
  · exact h
  · exact ⟨(hstamp.endBackoff a ect).backoff, (hstamp.endBackoff a ect).running⟩
  · exact hstamp

theorem Alive.newack (h : Alive s.rtt) (o : TcpOptions) (a : TcpAck) : Alive (s.newack o a).rtt := by
  have hfirst : Alive (if o.timerfix then s else s.newtimer a.seqno).rtt := by
    split_ifs
    · exact h
    · exact h.newtimer a.seqno
  rw [TcpAgent.newack]
  generalize (if o.timerfix then s else s.newtimer a.seqno) = t at hfirst ⊢
  have hrtt := hfirst.newackRtt o a t.ect
  split
  · exact Alive.newtimer hrtt a.seqno
  · exact hrtt

theorem Alive.recvNewackHelper (h : Alive s.rtt) (o : TcpOptions) (a : TcpAck) :
    Alive (s.recvNewackHelper o a).rtt := by
  have hwindow : ∀ t : TcpAgent, (t.newackWindow o a).rtt = t.rtt := by
    intro t
    rw [newackWindow]
    split_ifs <;> rfl
  have hecn : ∀ t : TcpAgent, Alive t.rtt → Alive (t.newackEcn a).rtt := by
    intro t ht
    rw [newackEcn]
    dsimp only
    split_ifs
    · exact ⟨ht.backoff, ht.running⟩
    · exact ht
  have hdone : ∀ t : TcpAgent, (t.newackDone o).rtt = t.rtt := by
    intro t
    rw [newackDone]
    dsimp only
    split_ifs <;> rfl
  have hfrto : ∀ t : TcpAgent, (t.newackFrto o).rtt = t.rtt := by
    intro t
    rw [newackFrto]
    split_ifs <;> rfl
  rw [TcpAgent.recvNewackHelper, hfrto, hdone]
  refine hecn _ ?_
  rw [hwindow]
  exact h.newack o a

theorem Alive.ecn (h : Alive s.rtt) {seqno : ℤ}
    (hcan : s.Responds seqno → s.cwnd ≤ 1 → s.rtt.ecnBackoff = true → CanBackOff o s) :
    Alive (s.ecn o seqno).rtt := by
  rw [TcpAgent.ecn]
  split_ifs with hresp
  · change Alive (s.ecnRtt o).rtt
    rw [ecnRtt]
    split_ifs with hone hback
    · exact h.rttBackoff (hcan hresp hone hback)
    · exact ⟨h.backoff, h.running⟩
    · exact ⟨h.backoff, h.running⟩
  · exact h

theorem Alive.dupackAction (h : Alive s.rtt) (o : TcpOptions) : Alive (s.dupackAction o).rtt := by
  have hreset : ∀ t : TcpAgent, t.rtt = s.rtt → Alive (t.resetRtxTimer o false).rtt :=
    fun t ht => Alive.resetRtxTimer (ht ▸ h) fun hf => absurd hf (by decide)
  rw [TcpAgent.dupackAction]
  split_ifs
  · exact hreset _ rfl
  · exact hreset _ rfl
  · exact h
  · exact hreset _ rfl

theorem Alive.recvDupack (h : Alive s.rtt) (o : TcpOptions) (clock : TcpClock) :
    Alive (s.recvDupack o clock).rtt := by
  have hdup : Alive ({ s with dupacks := s.dupacks + 1 } : TcpAgent).rtt := h
  rw [TcpAgent.recvDupack]
  dsimp only
  split_ifs
  · exact hdup.dupackAction o
  · rw [TcpAgent.sendOne]
    split_ifs
    · exact hdup.sendNext o clock
    · exact hdup
  · exact hdup

theorem Alive.tcpEln (h : Alive s.rtt) {ack : ℤ} (heln : s.tcpEln o clock ack = some s') :
    Alive s'.rtt := by
  have hdup : Alive ({ s with dupacks := s.dupacks + 1 } : TcpAgent).rtt := h
  rw [TcpAgent.tcpEln] at heln
  dsimp only at heln
  split_ifs at heln
  · cases heln
    exact hdup.output o _
  · exact hdup.sendMuch heln

theorem Alive.recvTail (h : Alive s.rtt) {ack : ℤ} (htail : s.recvTail o clock ack = some s') :
    Alive s'.rtt := by
  have hq : Alive (if o.qOption ∧ o.enblRTTCtr then s.processQoptionAfterAck o ack else s).rtt := by
    split_ifs
    · obtain ⟨q, heq⟩ := processQoptionAfterAck_eq o ack s
      rw [heq]
      exact h
    · exact h
  rw [TcpAgent.recvTail] at htail
  generalize (if o.qOption ∧ o.enblRTTCtr then s.processQoptionAfterAck o ack else s) = t at hq htail
  split_ifs at htail
  · exact hq.sendMuch htail
  · cases htail
    exact hq

theorem Alive.recv (h : Alive s.rtt) {a : TcpAck} (hmeets : a.stale = true ∨ s.AckMeets o a)
    (hrecv : s.recv o clock a = some s') : Alive s'.rtt := by
  rw [TcpAgent.recv] at hrecv
  by_cases hstale : a.stale = true
  · rw [if_pos hstale] at hrecv
    cases hrecv
    exact h
  · rw [if_neg hstale] at hrecv
    have hcan := (hmeets.resolve_left hstale).backoff
    have hecn : Alive (if a.ecnecho ∧ o.ecn then s.ecn o a.seqno else s).rtt := by
      split_ifs with hecho
      · exact h.ecn fun hresp => hcan ⟨hecho.1, hecho.2, hresp⟩
      · exact h
    generalize (if a.ecnecho ∧ o.ecn then s.ecn o a.seqno else s) = s₁ at hecn hrecv
    have hfrto : Alive (s₁.recvFrtoHelper a.seqno).rtt := by
      rw [recvFrtoHelper]
      split_ifs
      · exact hecn
      · exact hecn
    dsimp only at hrecv
    generalize s₁.recvFrtoHelper a.seqno = s₂ at hfrto hrecv
    split_ifs at hrecv
    · obtain ⟨t, ht, htail⟩ := Option.bind_eq_some_iff.1 hrecv
      obtain ⟨w, -, rfl⟩ := Option.map_eq_some_iff.1 ht
      have hacked : Alive ({ s₂.recvNewackHelper o a with cwnd := w } : TcpAgent).rtt :=
        hfrto.recvNewackHelper o a
      exact hacked.recvTail htail
    · exact (hfrto.recvNewackHelper o a).recvTail hrecv
    · exact hfrto.tcpEln hrecv
    · exact (hfrto.recvDupack o clock).recvTail hrecv
    · exact hfrto.recvTail hrecv

/-- The sequence numbers and the timeout do not depend on what a timeout does to the window. -/
theorem timeoutWindow_same (o : TcpOptions) (s : TcpAgent) :
    (s.timeoutWindow o).rtt = s.rtt ∧ (s.timeoutWindow o).highestAck = s.highestAck ∧
      (s.timeoutWindow o).maxseq = s.maxseq := by
  rw [timeoutWindow]
  dsimp only
  split
  · exact ⟨rfl, rfl, rfl⟩
  · split
    · exact ⟨rfl, rfl, rfl⟩
    · split <;> split <;> exact ⟨rfl, rfl, rfl⟩

theorem Alive.timeout (h : Alive s.rtt) (hmeets : Meets o s .rtxExpire)
    (htimeout : s.timeout o clock = some s') : Alive s'.rtt := by
  rw [TcpAgent.timeout] at htimeout
  refine Alive.sendMuch ?_ htimeout
  dsimp only
  generalize hs : ({ s with
    frto := 0
    pipePrev := if window o { s with frto := 0 } > s.ssthresh then window o { s with frto := 0 }
      else s.ssthresh
    cwnd := if s.cwnd < 1 then 1 else s.cwnd } : TcpAgent) = t
  have hsame : t.rtt = s.rtt ∧ t.highestAck = s.highestAck ∧ t.maxseq = s.maxseq := by
    rw [← hs]
    exact ⟨rfl, rfl, rfl⟩
  obtain ⟨hrtt, hack, hmax⟩ := timeoutWindow_same o t
  refine Alive.resetRtxTimer (hrtt.trans hsame.1 ▸ h) fun hback => ?_
  rw [CanBackOff, hrtt, hsame.1]
  rw [hack, hmax, hsame.2.1, hsame.2.2, Bool.not_eq_true', Bool.and_eq_false_iff,
    decide_eq_false_iff_not] at hback
  refine hmeets.resolve_left fun hidle => ?_
  rcases hback with hout | hfix
  · exact hout hidle.1
  · exact absurd (hfix.symm.trans hidle.2) (by decide)

end Ns2.TcpAgent
