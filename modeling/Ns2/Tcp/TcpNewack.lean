import Ns2.Tcp.TcpTimers

/-! A new acknowledgement leaves the sender ready for `send_much`. -/

namespace Ns2.TcpAgent

variable {o : TcpOptions} {s s₁ s' : TcpAgent} {a : TcpAck} {clock : TcpClock}

/-- After `recv_newack_helper`, when the initial window may still be set. -/
structure Acked (o : TcpOptions) (s : TcpAgent) : Prop extends Base o s where
  low : s.highestAck ≤ s.tSeqno
  next : s.highestAck < s.tSeqno ∨ o.overhead = 0 ∧ ∀ w, CanSend o { s with cwnd := w }
  isOpen : s.rtxPending = false →
    s.tSeqno = s.highestAck + 1 ∧ s.maxseq = s.highestAck ∧ s.frto = 0 ∧
        (1 ≤ s.cwnd ∨ s.lastAck = 0 ∧ o.delayGrowth = true) ∨
      o.overhead = 0 ∧ ∀ w, CanSend o { s with cwnd := w }

theorem Base.setCwnd (h : Base o s) (w : ℚ) : Base o { s with cwnd := w } :=
  h.recut ⟨rfl, id⟩

theorem Acked.setCwnd (h : Acked o s) {w : ℚ} (hw : 1 ≤ w) : Ready o { s with cwnd := w } := by
  refine ⟨h.toBase.setCwnd w, h.low, h.next.imp id fun hsend => ⟨hsend.1, hsend.2 w⟩, fun hrtx => ?_⟩
  refine (h.isOpen hrtx).imp (fun ho => ?_) fun hsend => ⟨hsend.1, hsend.2 w⟩
  exact ⟨ho.1, ho.2.1, hw, ho.2.2.1⟩

theorem Acked.ready (h : Acked o s) (hnot : ¬(s.lastAck = 0 ∧ o.delayGrowth = true)) :
    Ready o s := by
  refine ⟨h.toBase, h.low, h.next.imp id fun hsend => ⟨hsend.1, hsend.2 s.cwnd⟩, fun hrtx => ?_⟩
  refine (h.isOpen hrtx).imp (fun ho => ?_) fun hsend => ⟨hsend.1, hsend.2 s.cwnd⟩
  exact ⟨ho.1, ho.2.1, ho.2.2.2.resolve_right hnot, ho.2.2.1⟩

theorem one_le_initialWindow (h : 1 ≤ s.wndInit) {w : ℚ} (hw : s.initialWindow o = some w) :
    1 ≤ w := by
  rw [initialWindow] at hw
  split_ifs at hw <;> cases hw
  · exact h
  · norm_num
  · norm_num
  · norm_num

theorem increment_le_limitedSlowStart (cwnd : ℚ) (maxSsthresh : ℤ) (increment : ℚ) :
    increment ≤ limitedSlowStart cwnd maxSsthresh increment := by
  rw [limitedSlowStart]
  dsimp only
  generalize (if ratToInt (cwnd / (maxSsthresh / 2)) > 0 then
    (1 : ℚ) / ratToInt (cwnd / (maxSsthresh / 2)) else 0) = increment1
  split_ifs with h₁ h₂
  · exact le_rfl
  · exact h₂.le
  · exact le_rfl

theorem one_le_clamp (hmax : 0 ≤ o.maxcwnd) {cwnd : ℚ} (hcwnd : 1 ≤ cwnd) :
    1 ≤ if o.maxcwnd ≠ 0 ∧ ratToInt cwnd > o.maxcwnd then (o.maxcwnd : ℚ) else cwnd := by
  split_ifs with hclamp
  · have : 1 ≤ o.maxcwnd := by omega
    exact_mod_cast this
  · exact hcwnd

/-- Slow start opens a window of less than a packet, and no window gets smaller than one. -/
theorem one_le_opencwnd (hinc : 0 ≤ o.increaseNum) (hmax : 0 ≤ o.maxcwnd)
    (hcwnd : 1 ≤ s.cwnd ∨ 0 ≤ s.cwnd ∧ s.cwnd < s.ssthresh) : 1 ≤ (s.opencwnd o).cwnd := by
  rw [TcpAgent.opencwnd]
  refine one_le_clamp hmax ?_
  by_cases hslow : s.cwnd < s.ssthresh
  · rw [if_pos hslow]
    have : 0 ≤ s.cwnd := by
      rcases hcwnd with h | h
      · linarith
      · exact h.1
    linarith
  · rw [if_neg hslow]
    have hone := hcwnd.resolve_right fun h => hslow h.2
    have hinc' : 0 ≤ o.increaseNum / s.cwnd := div_nonneg hinc (by linarith)
    dsimp only
    split_ifs
    · linarith [increment_le_limitedSlowStart s.cwnd o.maxSsthresh (o.increaseNum / s.cwnd)]
    · linarith

theorem newtimer_eq (n : ℤ) (s : TcpAgent) : s.newtimer n = { s with
    rtt := if s.tSeqno > n ∨ n < s.maxseq ∨ s.cwnd < 1 then s.setRtxTimer.rtt else s.rtt
    rtxPending := decide (s.tSeqno > n ∨ n < s.maxseq ∨ s.cwnd < 1) } := by
  rw [newtimer]
  by_cases hset : s.tSeqno > n ∨ n < s.maxseq ∨ s.cwnd < 1
  · rw [if_pos hset, if_pos hset, decide_eq_true hset]
    rfl
  · rw [if_neg hset, if_neg hset, decide_eq_false hset]
    rfl

theorem newack_eq (o : TcpOptions) (a : TcpAck) (s : TcpAgent) : s.newack o a = { s with
    dupacks := 0
    lastAck := a.seqno
    prevHighestAck := s.highestAck
    highestAck := a.seqno
    tSeqno := if s.tSeqno < a.seqno + 1 then a.seqno + 1 else s.tSeqno
    rtt := (s.newack o a).rtt
    rtxPending :=
      o.timerfix || decide (s.tSeqno > a.seqno ∨ a.seqno < s.maxseq ∨ s.cwnd < 1) } := by
  have hnext : (if s.tSeqno < a.seqno + 1 then a.seqno + 1 else s.tSeqno) > a.seqno := by
    split_ifs <;> omega
  rw [newack]
  cases hfix : o.timerfix with
  | true =>
    simp only [↓reduceIte, newtimer_eq, hnext, true_or, decide_true, Bool.true_or]
  | false =>
    simp only [Bool.false_eq_true, ↓reduceIte, newtimer_eq, Bool.false_or]

theorem newackWindow_eq (o : TcpOptions) (a : TcpAck) (s : TcpAgent) :
    s.newackWindow o a = { s with cwnd := (s.newackWindow o a).cwnd } := by
  rw [newackWindow]
  split_ifs <;> rfl

theorem one_le_newackWindow (hoptions : 0 ≤ o.increaseNum ∧ 0 ≤ o.maxcwnd) (hcwnd : 1 ≤ s.cwnd) :
    1 ≤ (s.newackWindow o a).cwnd := by
  rw [newackWindow]
  split_ifs
  · exact one_le_opencwnd hoptions.1 hoptions.2 (Or.inl hcwnd)
  · exact hcwnd
  · exact hcwnd

theorem one_le_newackWindow_of_opens (hoptions : 0 ≤ o.increaseNum ∧ 0 ≤ o.maxcwnd)
    (hwnd : 1 ≤ o.wnd) (hopens : s.Opens o a) (hssthresh : 1 ≤ s.ssthresh) (hfrto : s.frto ≠ 2)
    (hprev : s.prevHighestAck < s.tSeqno) (hcwnd : 0 ≤ s.cwnd) :
    1 ≤ (s.newackWindow o a).cwnd := by
  by_cases hone : 1 ≤ s.cwnd
  · exact one_le_newackWindow hoptions hone
  · rw [not_le] at hone
    have hwin : s.window o = 0 := by
      rw [window, if_neg hfrto, if_pos (by linarith), ratToInt, if_pos hcwnd]
      exact Int.floor_eq_zero_iff.2 ⟨hcwnd, hone⟩
    have hlimited : s.networkLimited o = true := by
      rw [networkLimited, hwin]
      exact decide_eq_true (by omega)
    rw [Opens] at hopens
    rw [newackWindow, if_pos hopens, if_pos (Or.inr hlimited)]
    have hslow : s.cwnd < s.ssthresh := by
      have : (1 : ℚ) ≤ s.ssthresh := by exact_mod_cast hssthresh
      linarith
    exact one_le_opencwnd hoptions.1 hoptions.2 (Or.inr ⟨hcwnd, hslow⟩)

theorem newackDone_eq (o : TcpOptions) (s : TcpAgent) : s.newackDone o = { s with
    closed := (s.newackDone o).closed
    rtxPending := if o.qOption = true ∧ s.curseq = s.highestAck + 1 then false else s.rtxPending } := by
  rw [newackDone]
  dsimp only
  split_ifs <;> rfl

theorem newackDone_window_eq (o : TcpOptions) (a : TcpAck) (s : TcpAgent) :
    ((s.newackWindow o a).newackEcn a).newackDone o = { s with
      cwnd := (s.newackWindow o a).cwnd
      ecnBurst := ((s.newackWindow o a).newackEcn a).ecnBurst
      ect := ((s.newackWindow o a).newackEcn a).ect
      rtt := ((s.newackWindow o a).newackEcn a).rtt
      closed := (((s.newackWindow o a).newackEcn a).newackDone o).closed
      rtxPending := if o.qOption = true ∧ s.curseq = s.highestAck + 1 then false else s.rtxPending } := by
  obtain ⟨c, hwin⟩ : ∃ c, s.newackWindow o a = { s with cwnd := c } := ⟨_, newackWindow_eq o a s⟩
  obtain ⟨b, e, r, hecn⟩ : ∃ b e r, newackEcn a { s with cwnd := c } =
      { s with cwnd := c, ecnBurst := b, ect := e, rtt := r } := ⟨_, _, _, rfl⟩
  rw [hwin, hecn, newackDone_eq]

/-- Before F-RTO. -/
structure Newacked (o : TcpOptions) (a : TcpAck) (s s₁ t : TcpAgent) : Prop extends Core o t where
  ack : t.lastAck = a.seqno
  prev : t.prevHighestAck = s.highestAck
  data : t.curseq = s.curseq
  unchanged : t.frto = s.frto ∧ t.recover = s₁.recover
  sentUnchanged : t.maxseq = s.maxseq
  idle : t.rtxPending = false → t.tSeqno = t.highestAck + 1 ∧ t.maxseq = t.highestAck ∧
    (t.frto = 2 ∨ 1 ≤ t.cwnd ∨ t.lastAck = 0 ∧ o.delayGrowth = true)

theorem Core.newack (h : Core o s) (hnew : s.highestAck < a.seqno) (hsent : a.seqno ≤ s.maxseq) :
    Core o (s.newack o a) := by
  have hup := h.sentUp
  have hin := h.inData
  have hdata := h.sentData
  rw [newack_eq]
  refine ⟨⟨rfl, hsent, ?_, ?_, ?_, h.ssthresh, h.wndInit, h.frto, h.recover, h.pipePrev, h.delsnd⟩, ?_⟩
  · dsimp only
    split_ifs <;> omega
  · dsimp only
    split_ifs <;> omega
  · dsimp only
    omega
  · dsimp only
    split_ifs <;> omega

section

variable (hr : Responded o a s s₁) (h : Inv o s) (hwnd : 1 ≤ o.wnd) (hmeets : s.AckMeets o a)
include hr h hwnd hmeets

/-- When the timer is cancelled, nothing is outstanding and the window will be open. -/
theorem Responded.idle (hnew : s.lastAck < a.seqno) (hsent : a.seqno ≤ s.maxseq)
    (hrtx : (if o.qOption = true ∧ (s₁.newack o a).curseq = (s₁.newack o a).highestAck + 1
      then false else (s₁.newack o a).rtxPending) = false) :
    (s₁.newack o a).tSeqno = (s₁.newack o a).highestAck + 1 ∧
      (s₁.newack o a).maxseq = (s₁.newack o a).highestAck ∧
      ((s₁.newack o a).frto = 2 ∨ 1 ≤ ((s₁.newack o a).newackWindow o a).cwnd ∨
        (s₁.newack o a).lastAck = 0 ∧ o.delayGrowth = true) := by
  have hlast := h.lastAck
  have hin := h.inData
  have hdata := h.sentData
  have hcwnd : (s₁.newack o a).cwnd = s.ecnWindow o a := by
    rw [newack_eq, hr.cwnd]
  by_cases hquiet : o.qOption = true ∧
      (s₁.newack o a).curseq = (s₁.newack o a).highestAck + 1
  · have hall : s.curseq = a.seqno + 1 := by
      have hcur := hquiet.2
      rw [newack_eq, hr.same] at hcur
      exact hcur
    have hoptions := hmeets.options (Or.inr hquiet.1)
    refine ⟨?_, ?_, ?_⟩
    · rw [newack_eq, hr.same]
      dsimp only
      split_ifs <;> omega
    · rw [newack_eq, hr.same]
      dsimp only
      omega
    · rcases hmeets.quiet hnew hquiet.1 hall with hf | hinit | hone | ⟨hzero, hopens⟩
      · left
        rw [newack_eq, hr.same]
        exact hf
      · right; right
        rw [newack_eq]
        exact hinit.symm
      · right; left
        exact one_le_newackWindow hoptions (hcwnd ▸ hone)
      · by_cases hf : (s₁.newack o a).frto = 2
        · exact Or.inl hf
        · right; left
          refine one_le_newackWindow_of_opens hoptions hwnd ?_ ?_ hf ?_ (hcwnd ▸ hzero)
          · rw [Opens, newack_eq, hr.same]
            exact hopens
          · rw [newack_eq]
            exact hr.ssthresh h.ssthresh
          · rw [newack_eq, hr.same]
            dsimp only
            split_ifs <;> omega
  · rw [if_neg hquiet, newack_eq, hr.same] at hrtx
    simp only [Bool.or_eq_false_iff, decide_eq_false_iff_not, not_or, not_lt] at hrtx
    obtain ⟨hfix, hnext, hmax, hopen⟩ := hrtx
    refine ⟨?_, ?_, ?_⟩
    · rw [newack_eq, hr.same]
      dsimp only
      split_ifs <;> omega
    · rw [newack_eq, hr.same]
      dsimp only
      omega
    · right; left
      refine one_le_newackWindow (hmeets.options (Or.inl hfix)) ?_
      rw [newack_eq]
      exact hopen

theorem Responded.newacked (hnew : s.lastAck < a.seqno) (hsent : a.seqno ≤ s.maxseq) :
    Newacked o a s s₁ ((((s₁.newack o a).newackWindow o a).newackEcn a).newackDone o) := by
  have hcore := hr.core h.toCore
  have hlow : s₁.highestAck < a.seqno := by
    rw [hr.same]
    exact h.lastAck ▸ hnew
  have hup : a.seqno ≤ s₁.maxseq := by
    rw [hr.same]
    exact hsent
  have hback := hcore.newack hlow hup
  have hwin := hback.setCwnd ((s₁.newack o a).newackWindow o a).cwnd
  have hlast : (s₁.newack o a).lastAck = a.seqno := by rw [newack_eq]
  have hprev : (s₁.newack o a).prevHighestAck = s.highestAck := by rw [newack_eq, hr.same]
  have hdata : (s₁.newack o a).curseq = s.curseq := by rw [newack_eq, hr.same]
  have hfrto : (s₁.newack o a).frto = s.frto := by rw [newack_eq, hr.same]
  have hrecover : (s₁.newack o a).recover = s₁.recover := by rw [newack_eq]
  have hmax : (s₁.newack o a).maxseq = s.maxseq := by rw [newack_eq, hr.same]
  rw [newackDone_window_eq]
  exact ⟨⟨⟨hwin.lastAck, hwin.acked, hwin.sentUp, hwin.inData, hwin.sentData, hwin.ssthresh,
    hwin.wndInit, hwin.frto, hwin.recover, hwin.pipePrev, hwin.delsnd⟩, hback.next⟩,
    hlast, hprev, hdata, ⟨hfrto, hrecover⟩, hmax, fun hrtx => hr.idle h hwnd hmeets hnew hsent hrtx⟩

end

theorem one_le_window_frto {t : TcpAgent} (hfrto : t.frto = 2) (hwnd : 1 ≤ o.wnd)
    (hback : t.recover + 1 = t.highestAck) : 1 ≤ t.window o := by
  have hforce : t.forceWnd 2 = 1 := by
    rw [forceWnd]
    omega
  rw [window, if_pos hfrto, hforce]
  split_ifs
  · exact le_rfl
  · exact one_le_ratToInt hwnd

/-- The first acknowledgement after a timeout, when data was outstanding after it or the next packet
can be sent at once. -/
theorem Newacked.goOn {t : TcpAgent} (ht : Newacked o a s s₁ t) (hr : Responded o a s s₁)
    (hwnd : 1 ≤ o.wnd) (hmeets : s.AckMeets o a) (hnew : s.lastAck < a.seqno)
    (hsent : a.seqno ≤ s.maxseq) (hone : t.frto = 1)
    (hlimit : ((t.recover + 1 : ℤ) : ℚ) < t.highestAck + o.wnd ∧ t.recover + 1 < t.curseq)
    (hall : t.highestAck ≠ t.recover) : Acked o { t with
      tSeqno := t.recover + 1
      frto := 2 } := by
  have hrec := ht.recover hone
  have hack : t.highestAck = a.seqno := ht.lastAck ▸ ht.ack
  have hbase : Base o { t with
      tSeqno := t.recover + 1
      frto := 2 } := by
    refine ⟨ht.lastAck, ht.acked, ?_, ?_, ht.sentData, ht.ssthresh, ht.wndInit,
      Or.inr (Or.inr rfl), fun hf => ?_, fun _ => ht.pipePrev (by omega), ht.delsnd⟩
    · dsimp only
      omega
    · have := hlimit.2
      dsimp only
      omega
    · cases hf
  rcases lt_or_gt_of_ne hall with hlater | hearlier
  · refine ⟨hbase, ?_, Or.inl ?_, fun hrtx => ?_⟩
    · dsimp only
      omega
    · dsimp only
      omega
    · have := (ht.idle hrtx).2.1
      omega
  · have hcuts : ¬EcnCuts o a s := by
      intro hcuts
      have hmax := hr.recover
      rw [if_pos hcuts, ← ht.unchanged.2] at hmax
      omega
    have hsame : t.recover = s.recover := by
      rw [ht.unchanged.2, hr.recover, if_neg hcuts]
    have hback : GoesBack o a s := by
      refine ⟨ht.unchanged.1 ▸ hone, hcuts, by omega, ?_, ?_⟩
      · rw [← hsame, ← ht.data]
        exact hlimit.2
      · rw [← hsame, ← hack]
        exact hlimit.1
    have hnow := hmeets.frto hnew hback
    have hnext : t.recover + 1 = t.highestAck := by omega
    have hcan : ∀ w, CanSend o { t with
        tSeqno := t.recover + 1
        frto := 2
        cwnd := w } := by
      intro w
      have hwin : 1 ≤ window o { t with
          tSeqno := t.recover + 1
          frto := 2
          cwnd := w } := one_le_window_frto rfl hwnd hnext
      refine ⟨?_, hlimit.2⟩
      dsimp only at hwin ⊢
      omega
    refine ⟨hbase, ?_, Or.inr ⟨hnow.1, hcan⟩, fun _ => Or.inr ⟨hnow.1, hcan⟩⟩
    dsimp only
    omega

theorem Newacked.one_le_spuriousTimeout {t : TcpAgent} (ht : Newacked o a s s₁ t) (h : Inv o s)
    (hnew : s.lastAck < a.seqno) : 1 ≤ (t.spuriousTimeout o).cwnd := by
  rw [spuriousTimeout]
  dsimp only
  split_ifs
  · exact_mod_cast ht.ssthresh
  · exact le_rfl
  · have hnext := ht.next
    have hprev := ht.prev
    have hlast := h.lastAck
    have hlast' := ht.lastAck
    have hack := ht.ack
    have : 1 ≤ t.tSeqno - t.prevHighestAck := by omega
    exact_mod_cast this

theorem Newacked.newackFrto {t : TcpAgent} (ht : Newacked o a s s₁ t) (hr : Responded o a s s₁)
    (h : Inv o s) (hwnd : 1 ≤ o.wnd) (hmeets : s.AckMeets o a) (hnew : s.lastAck < a.seqno)
    (hsent : a.seqno ≤ s.maxseq) : Acked o (t.newackFrto o) := by
  have hend : t.frto ≠ 2 → Acked o { t with frto := 0 } := by
    intro hf
    refine ⟨⟨ht.lastAck, ht.acked, ht.sentUp, ht.inData, ht.sentData, ht.ssthresh, ht.wndInit,
      Or.inl rfl, fun hf => ?_, fun hf => absurd rfl hf, ht.delsnd⟩, ht.next.le, Or.inl ht.next,
      fun hrtx => ?_⟩
    · cases hf
    · obtain ⟨hnext, hmax, hcwnd⟩ := ht.idle hrtx
      exact Or.inl ⟨hnext, hmax, rfl, hcwnd.resolve_left hf⟩
  rw [TcpAgent.newackFrto]
  by_cases hone : t.frto = 1
  · rw [if_pos hone]
    have hnot : t.frto ≠ 2 := by omega
    by_cases hlimit : ((t.recover + 1 : ℤ) : ℚ) ≥ t.highestAck + o.wnd ∨ t.recover + 1 ≥ t.curseq
    · rw [if_pos hlimit]
      exact hend hnot
    · rw [if_neg hlimit]
      rw [not_or, ge_iff_le, not_le, ge_iff_le, not_le] at hlimit
      by_cases hall : t.highestAck = t.recover
      · rw [if_pos hall]
        exact hend hnot
      · rw [if_neg hall]
        exact ht.goOn hr hwnd hmeets hnew hsent hone hlimit hall
  · rw [if_neg hone]
    by_cases htwo : t.frto = 2
    · rw [if_pos htwo]
      have hopen := ht.one_le_spuriousTimeout h hnew
      refine ⟨⟨ht.lastAck, ht.acked, ht.sentUp, ht.inData, ht.sentData, ht.pipePrev (by omega),
        ht.wndInit, Or.inl rfl, fun hf => ?_, fun hf => absurd rfl hf, ht.delsnd⟩, ht.next.le,
        Or.inl ht.next, fun hrtx => ?_⟩
      · cases hf
      · obtain ⟨hnext, hmax, -⟩ := ht.idle hrtx
        exact Or.inl ⟨hnext, hmax, rfl, Or.inl hopen⟩
    · rw [if_neg htwo]
      have hzero : t.frto = 0 := by
        rcases ht.frto with h | h | h
        · exact h
        · exact absurd h hone
        · exact absurd h htwo
      have heq := hend htwo
      rw [← hzero] at heq
      exact heq

theorem Inv.recvNew (h : Inv o s) (hwnd : 1 ≤ o.wnd) (hmeets : s.AckMeets o a)
    (hnew : s.lastAck < a.seqno) (hsent : a.seqno ≤ s.maxseq) (hr : Responded o a s s₁)
    (clock : TcpClock) (hrecv : (if (s₁.recvNewackHelper o a).lastAck = 0 ∧ o.delayGrowth then
        ((s₁.recvNewackHelper o a).initialWindow o).map fun w =>
          { s₁.recvNewackHelper o a with cwnd := w }
      else some (s₁.recvNewackHelper o a)).bind (recvTail o clock a.seqno) = some s') : Inv o s' := by
  have hacked : Acked o (s₁.recvNewackHelper o a) :=
    (hr.newacked h hwnd hmeets hnew hsent).newackFrto hr h hwnd hmeets hnew hsent
  have hack : (s₁.recvNewackHelper o a).lastAck = a.seqno := by
    have hlast := (hr.newacked h hwnd hmeets hnew hsent).ack
    rw [← hlast, recvNewackHelper, TcpAgent.newackFrto]
    split_ifs <;> rfl
  have htail : ∀ w, Ready o { s₁.recvNewackHelper o a with cwnd := w } →
      recvTail o clock a.seqno { s₁.recvNewackHelper o a with cwnd := w } = some s' → Inv o s' := by
    intro w hready heq
    obtain ⟨t, ht, hinv⟩ := hready.recvTail hwnd (fun hlt => absurd hack hlt.ne') clock
    rw [ht] at heq
    cases heq
    exact hinv
  split_ifs at hrecv with hinit
  · cases hwin : (s₁.recvNewackHelper o a).initialWindow o with
    | none =>
      rw [hwin] at hrecv
      cases hrecv
    | some w =>
      rw [hwin] at hrecv
      exact htail w (hacked.setCwnd (one_le_initialWindow hacked.wndInit hwin)) hrecv
  · exact htail (s₁.recvNewackHelper o a).cwnd (hacked.ready hinit) hrecv

end Ns2.TcpAgent
