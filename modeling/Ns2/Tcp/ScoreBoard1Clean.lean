import Ns2.Tcp.ScoreBoard1Pass

/-! `CleanRtxQueue`, for a queue whose counters are right. -/

namespace Ns2.ScoreBoard1

open ScoreBoardNode1 List

/-- The nodes are consecutive from the first packet that is not acknowledged, and the counters are
theirs. No node before the pointer is LOST. -/
structure Consistent (ack : ℤ) (s : ScoreBoard1) : Prop where
  linked : ∃ c, Linked (ack + 1) s.nodes c
  sackOut : s.sackOut = packets .sacked s.nodes
  fackOut : s.fackOut = packets .lost s.nodes
  pointer : ∀ k ∈ s.nxtToRetrx, k < s.nodes.length ∧ ∀ n ∈ s.nodes.take k, n.flag ≠ .lost

variable {s s' : ScoreBoard1} {n : ScoreBoardNode1} {rest : List ScoreBoardNode1}
  {ack lastAck pktNum : ℤ}

theorem Consistent.init : init.Consistent (-1) :=
  ⟨⟨0, rfl⟩, rfl, rfl, by simp [ScoreBoard1.init]⟩

theorem Consistent.clearScoreBoard (s : ScoreBoard1) (ack : ℤ) :
    s.clearScoreBoard.Consistent ack :=
  ⟨⟨_, rfl⟩, rfl, rfl, by simp [ScoreBoard1.clearScoreBoard]⟩

theorem uncount_eq (hsacked : n.flag = .sacked → pktNum ≤ s.sackOut)
    (hlost : n.flag = .lost → pktNum ≤ s.fackOut) :
    s.uncount n.flag pktNum = some { s with
      sackOut := s.sackOut - if n.flag = .sacked then pktNum else 0
      fackOut := s.fackOut - if n.flag = .lost then pktNum else 0 } := by
  cases hflag : n.flag with
  | sacked =>
    have := hsacked hflag
    simp [uncount, this]
  | lost =>
    have := hlost hflag
    simp [uncount, this]
  | inflight => simp [uncount]
  | retransmitted => simp [uncount]

theorem Consistent.uncount (h : s.Consistent ack) (hnodes : s.nodes = n :: rest)
    (hle : pktNum ≤ n.getLength) :
    s.uncount n.flag pktNum = some { s with
      sackOut := s.sackOut - if n.flag = .sacked then pktNum else 0
      fackOut := s.fackOut - if n.flag = .lost then pktNum else 0 } := by
  obtain ⟨c, hl⟩ := h.linked
  rw [hnodes] at hl
  have hsackOut := h.sackOut
  have hfackOut := h.fackOut
  have hsacked := hl.2.2.packets_nonneg .sacked
  have hlost := hl.2.2.packets_nonneg .lost
  rw [hnodes, packets_cons] at hsackOut hfackOut
  apply uncount_eq
  · intro hflag
    rw [if_pos hflag] at hsackOut
    omega
  · intro hflag
    rw [if_pos hflag] at hfackOut
    omega

theorem Consistent.popHead (h : s.Consistent ack) (hnodes : s.nodes = n :: rest) (acked : ℤ) :
    (popHead rest { s with
      sackOut := s.sackOut - if n.flag = .sacked then n.getLength else 0
      fackOut := s.fackOut - if n.flag = .lost then n.getLength else 0
      ackedRtxId := acked }).Consistent n.getEnd := by
  obtain ⟨c, hl⟩ := h.linked
  have hsackOut := h.sackOut
  have hfackOut := h.fackOut
  have hpointer := h.pointer
  rw [hnodes] at hl hsackOut hfackOut hpointer
  rw [packets_cons] at hsackOut hfackOut
  refine ⟨⟨c, hl.2.2⟩, ?_, ?_, ?_⟩
  · change s.sackOut - _ = packets .sacked rest
    omega
  · change s.fackOut - _ = packets .lost rest
    omega
  · intro k hk
    simp only [ScoreBoard1.popHead] at hk ⊢
    rcases hptr : s.nxtToRetrx with _ | _ | j
    · simp [hptr] at hk
    · by_cases hrest : rest = []
      · simp [hptr, hrest] at hk
      · obtain rfl : 0 = k := by simpa [hptr, hrest] using hk
        exact ⟨length_pos_iff.2 hrest, by simp⟩
    · obtain rfl : j = k := by simpa [hptr] using hk
      obtain ⟨hlt, hbefore⟩ := hpointer (j + 1) hptr
      refine ⟨by simpa using hlt, fun m hm => hbefore m ?_⟩
      rw [take_succ_cons]
      exact mem_cons_of_mem n hm

/-- What is left of a queue. -/
def afterAck (lastAck : ℤ) (l : List ScoreBoardNode1) : List ScoreBoardNode1 :=
  (l.filter fun n => decide (lastAck < n.getEnd)).map fun n =>
    { n with seq := max n.seq (lastAck + 1) }

/-- A retransmission is acknowledged, with a number above those before. -/
def newer (ackedRtxId lastAck : ℤ) (n : ScoreBoardNode1) : Bool :=
  decide (n.flag = .retransmitted ∧ n.seq ≤ lastAck ∧ ackedRtxId < n.retran)

theorem afterAck_of_lt {l : List ScoreBoardNode1} {a c : ℤ} (hl : Linked a l c)
    (ha : lastAck < a) : afterAck lastAck l = l := by
  have hbounds : ∀ n ∈ l, lastAck < n.getEnd ∧ max n.seq (lastAck + 1) = n.seq := by
    intro n hn
    have := hl.bounds hn
    omega
  rw [afterAck, filter_eq_self.2 fun n hn => decide_eq_true (hbounds n hn).1]
  conv_rhs => rw [← map_id l]
  apply map_congr_left
  intro n hn
  rw [(hbounds n hn).2]
  rfl

theorem shouldClean_cases (n : ScoreBoardNode1) (lastAck : ℤ) :
    n.shouldClean lastAck = 0 ∧ lastAck < n.seq ∨
    n.shouldClean lastAck = -1 ∧ n.getEnd ≤ lastAck ∨
    n.shouldClean lastAck = lastAck + 1 - n.seq ∧ n.flag ≠ .retransmitted ∧ n.seq ≤ lastAck ∧
      lastAck < n.getEnd := by
  rw [shouldClean, getEnd]
  split_ifs <;> simp_all

/-- What `CleanRtxQueue` has done to `s`. -/
structure Cleaned (lastAck : ℤ) (s s' : ScoreBoard1) (changed : Bool) : Prop where
  consistent : s'.Consistent lastAck
  nodes : s'.nodes = afterAck lastAck s.nodes
  fack : s'.fack = s.fack
  newer : changed = s.nodes.any (newer s.ackedRtxId lastAck)
  ackedRtxId : changed = false → s'.ackedRtxId = s.ackedRtxId
  pointer : s'.nxtToRetrx = none ↔ s.nxtToRetrx = none ∨ s'.nodes = []

theorem Consistent.cleaned_refl (h : s.Consistent ack) (hnodes : s.nodes = n :: rest)
    (hack : ack ≤ lastAck) (hlt : lastAck < n.seq) : Cleaned lastAck s s false := by
  obtain ⟨c, hl⟩ := h.linked
  have hseq : n.seq = ack + 1 := by
    rw [hnodes] at hl
    exact hl.1
  obtain rfl : ack = lastAck := by omega
  refine ⟨h, (afterAck_of_lt hl (by omega)).symm, rfl, ?_, fun _ => rfl, by simp [hnodes]⟩
  symm
  rw [any_eq_false]
  intro m hm
  have := hl.bounds hm
  simp only [ScoreBoard1.newer, decide_eq_true_eq]
  omega

theorem Consistent.setBegin (h : s.Consistent ack) (hnodes : s.nodes = n :: rest)
    (hflag : n.flag ≠ .retransmitted) (hlow : n.seq ≤ lastAck) (hhigh : lastAck < n.getEnd) :
    Cleaned lastAck s { s with
      sackOut := s.sackOut - if n.flag = .sacked then lastAck + 1 - n.seq else 0
      fackOut := s.fackOut - if n.flag = .lost then lastAck + 1 - n.seq else 0
      nodes := { n with seq := lastAck + 1 } :: rest } false := by
  obtain ⟨c, hl⟩ := h.linked
  rw [hnodes] at hl
  have hlen := n.getLength_eq
  have hend : ScoreBoardNode1.getEnd { n with seq := lastAck + 1 } = n.getEnd := by
    simp [getEnd, hflag]
  have hrest : afterAck lastAck rest = rest := afterAck_of_lt hl.2.2 (by omega)
  have hlen' := getLength_eq { n with seq := lastAck + 1 }
  have hsackOut := h.sackOut
  have hfackOut := h.fackOut
  rw [hnodes, packets_cons] at hsackOut hfackOut
  refine ⟨⟨⟨c, rfl, ?_, ?_⟩, ?_, ?_, ?_⟩, ?_, rfl, ?_, fun _ => rfl, ?_⟩
  · omega
  · rw [hend]
    exact hl.2.2
  · change s.sackOut - _ = packets .sacked ({ n with seq := lastAck + 1 } :: rest)
    rw [packets_cons]
    split_ifs at hsackOut ⊢ <;> dsimp only at * <;> omega
  · change s.fackOut - _ = packets .lost ({ n with seq := lastAck + 1 } :: rest)
    rw [packets_cons]
    split_ifs at hfackOut ⊢ <;> dsimp only at * <;> omega
  · intro k hk
    obtain ⟨hlt, hbefore⟩ := h.pointer k hk
    rw [hnodes] at hlt hbefore
    refine ⟨hlt, fun m hm => ?_⟩
    cases k with
    | zero => simp at hm
    | succ k =>
      rw [take_succ_cons, forall_mem_cons] at hbefore
      rw [take_succ_cons] at hm
      rcases mem_cons.1 hm with rfl | hm
      · exact hbefore.1
      · exact hbefore.2 m hm
  · rw [hnodes, afterAck, filter_cons_of_pos (by simpa using hhigh), map_cons,
      max_eq_right (by omega)]
    exact congrArg _ hrest.symm
  · symm
    rw [hnodes, any_eq_false]
    intro m hm
    have hnot : m.flag = .retransmitted → lastAck < m.seq := by
      intro hm'
      rcases mem_cons.1 hm with rfl | hm
      · exact absurd hm' hflag
      · have := hl.2.2.bounds hm
        omega
    simp only [newer, decide_eq_true_eq]
    rintro ⟨hm', hle', -⟩
    have := hnot hm'
    omega
  · simp

theorem Cleaned.pop {changed : Bool} {sackOut fackOut : ℤ} (hnodes : s.nodes = n :: rest)
    (hend : n.getEnd ≤ lastAck)
    (h : Cleaned lastAck (popHead rest { s with
      sackOut := sackOut
      fackOut := fackOut
      ackedRtxId := if ScoreBoard1.newer s.ackedRtxId lastAck n then n.retran else s.ackedRtxId })
        s' changed) :
    Cleaned lastAck s s' (ScoreBoard1.newer s.ackedRtxId lastAck n || changed) := by
  have hafter : afterAck lastAck (n :: rest) = afterAck lastAck rest := by
    rw [afterAck, filter_cons_of_neg (by simp [hend]), afterAck]
  have hnewer := h.newer
  have hacked := h.ackedRtxId
  have hpointer := h.pointer
  have hnil : rest = [] → s'.nodes = [] := by
    rintro rfl
    exact h.nodes
  refine ⟨h.consistent, ?_, h.fack, ?_, ?_, ?_⟩
  · rw [hnodes, hafter]
    exact h.nodes
  · rw [hnodes, any_cons, hnewer]
    cases ScoreBoard1.newer s.ackedRtxId lastAck n <;> simp [ScoreBoard1.popHead]
  · rw [Bool.or_eq_false_iff]
    rintro ⟨hn, hchanged⟩
    rw [hacked hchanged]
    simp [ScoreBoard1.popHead, hn]
  · rw [hpointer, ScoreBoard1.popHead]
    dsimp only
    rcases s.nxtToRetrx with _ | _ | j
    · simp
    · by_cases hrest : rest = [] <;> simp [hrest, hnil]
    · simp

theorem Consistent.cleanFrom (h : s.Consistent ack) (hack : ack ≤ lastAck) (flag : AckFlags)
    (changed : Bool) :
    ∃ s' flag' changed', cleanFrom lastAck s.nodes s flag changed =
      some (s', flag', changed || changed') ∧ Cleaned lastAck s s' changed' := by
  induction hnodes : s.nodes generalizing s ack flag changed with
  | nil =>
    refine ⟨{ s with nodes := [] }, flag, false, by simp [ScoreBoard1.cleanFrom], ?_⟩
    have hptr : s.nxtToRetrx = none := by
      rw [Option.eq_none_iff_forall_not_mem]
      intro k hk
      have := (h.pointer k hk).1
      simp [hnodes] at this
    refine ⟨⟨⟨_, rfl⟩, ?_, ?_, by simp [hptr]⟩, by simp [hnodes, afterAck], rfl, by simp [hnodes],
      fun _ => rfl, by simp [hptr]⟩
    · have := h.sackOut
      rwa [hnodes] at this
    · have := h.fackOut
      rwa [hnodes] at this
  | cons n rest ih =>
    obtain ⟨c, hl⟩ := h.linked
    rw [hnodes] at hl
    have hlen := n.getLength_eq
    have hseq := hl.1
    have hle := hl.2.1
    rw [ScoreBoard1.cleanFrom]
    dsimp only
    rcases shouldClean_cases n lastAck with ⟨hcmp, hlt⟩ | ⟨hcmp, hend⟩ |
        ⟨hcmp, hflag, hlow, hhigh⟩
    · refine ⟨s, flag, false, ?_, h.cleaned_refl hnodes hack hlt⟩
      rw [hcmp, if_pos rfl, Bool.or_false, ← hnodes]
    · rw [hcmp, if_neg (by omega), if_pos (by omega), h.uncount hnodes le_rfl, Option.bind_some]
      by_cases hretran : n.flag = .retransmitted
      · rw [if_pos hretran]
        have hnewer : decide (n.retran > s.ackedRtxId) = newer s.ackedRtxId lastAck n := by
          rw [newer, hretran]
          simp
          omega
        have hpop := h.popHead hnodes
          (if newer s.ackedRtxId lastAck n then n.retran else s.ackedRtxId)
        obtain ⟨s', flag', changed', hclean, hcleaned⟩ := ih hpop hend
          { flag with unsureTstamp := true } (changed || newer s.ackedRtxId lastAck n) rfl
        refine ⟨s', flag', _, ?_, hcleaned.pop hnodes hend⟩
        dsimp only
        rw [hnewer, ← Bool.or_assoc, ← hclean]
      · rw [if_neg hretran]
        have hnewer : newer s.ackedRtxId lastAck n = false := by simp [newer, hretran]
        have hpop := h.popHead hnodes
          (if newer s.ackedRtxId lastAck n then n.retran else s.ackedRtxId)
        obtain ⟨s', flag', changed', hclean, hcleaned⟩ := ih hpop hend flag changed rfl
        refine ⟨s', flag', _, ?_, hcleaned.pop hnodes hend⟩
        have hsame : (if newer s.ackedRtxId lastAck n then n.retran else s.ackedRtxId) =
            s.ackedRtxId := by rw [hnewer, if_neg Bool.false_ne_true]
        rw [hnewer, Bool.false_or, ← hclean, hsame]
    · rw [hcmp, if_neg (by omega), if_neg (by omega), h.uncount hnodes (by omega), Option.map_some]
      exact ⟨_, flag, false, by rw [Bool.or_false], h.setBegin hnodes hflag hlow hhigh⟩

end Ns2.ScoreBoard1
