import Ns2.Lib.Machine
import Ns2.Tcp.ScoreBoard1Loss

/-! Any calls of a `ScoreBoard1` with acknowledgements that do not go back. -/

namespace Ns2

namespace ScoreBoard1

open ScoreBoardNode1

variable {s s₁ : ScoreBoard1} {k k' : Pass} {ack lastAck dupackThreshold : ℤ}
  {blocks sacks : List (ℤ × ℤ)} {changed : Bool}

/-- A node is left, no block passes the filter, or `fack_` gets above `last_ack`. -/
def Fits (lastAck : ℤ) (blocks : List (ℤ × ℤ)) (s : ScoreBoard1) : Prop :=
  (∃ n ∈ s.nodes, lastAck < n.getEnd) ∨ sortSacks lastAck blocks = [] ∨
    lastAck < advanceFack (sortSacks lastAck blocks) 0

theorem Pass.start_sound (h : s.Consistent lastAck)
    (hfits : s.nodes = [] → lastAck < advanceFack sacks s.fack) (flag : AckFlags)
    (thorough : Bool) :
    ∃ c, (Pass.start lastAck sacks flag thorough s).Sound (lastAck + 1) (lastAck + 1) c := by
  by_cases hnil : s.nodes = []
  · have hsackOut := h.sackOut
    have hfackOut := h.fackOut
    rw [hnil, packets_nil] at hsackOut hfackOut
    have hlt := hfits hnil
    refine ⟨advanceFack sacks s.fack + 1, ⟨rfl, ?_, ?_, ?_, rfl⟩⟩
    · simp only [start, if_pos hnil]
      refine ⟨rfl, ?_, rfl⟩
      change lastAck + 1 ≤ advanceFack sacks s.fack
      omega
    · simp only [start, if_pos hnil, hsackOut]
      rfl
    · simp only [start, if_pos hnil, hfackOut]
      rfl
  · obtain ⟨c, hl⟩ := h.linked
    refine ⟨c, ⟨rfl, ?_, ?_, ?_, rfl⟩⟩ <;> simp only [start, if_neg hnil]
    · exact hl
    · exact h.sackOut
    · exact h.fackOut

theorem Pass.Sound.result {q c : ℤ} (h : k.Sound (ack + 1) q c) : k.result.Consistent ack := by
  have hcount : ∀ f, packets f (k.done ++ k.todo) = packets f (k.done.reverse ++ k.todo) := by
    intro f
    rw [packets_append, packets_append, packets_reverse]
  refine ⟨⟨c, linked_append.2 ⟨q, h.visited, h.ahead⟩⟩, ?_, ?_, fun j hj => ?_⟩
  · exact h.sackOut.trans (hcount _)
  · exact h.fackOut.trans (hcount _)
  · obtain ⟨hlt, -, hbefore⟩ := List.findIdx?_eq_some_iff_getElem.1 (h.pointer.symm.trans hj)
    constructor
    · exact hlt.trans_le (List.length_append ▸ Nat.le_add_right _ _)
    · intro n hn
      rw [Pass.result, List.take_append_of_le_length hlt.le] at hn
      obtain ⟨i, hi, rfl⟩ := List.mem_take_iff_getElem.1 hn
      have hnot := hbefore i (by omega)
      simpa [isLost] using hnot

/-- The scoreboard when the blocks are looked at: cleaned, and cleared when no node is left. -/
structure Prepared (lastAck : ℤ) (s s₁ : ScoreBoard1) (thorough : Bool) : Prop where
  consistent : s₁.Consistent lastAck
  nodes : s₁.nodes = afterAck lastAck s.nodes
  fack : s₁.fack = if s₁.nodes = [] then 0 else s.fack
  fromAck : thorough = (!s₁.nodes.isEmpty && s.nodes.any (newer s.ackedRtxId lastAck))
  ackedRtxId : thorough = false → s₁.nodes ≠ [] → s₁.ackedRtxId = s.ackedRtxId
  pointer : s₁.nxtToRetrx = none ↔ s.nxtToRetrx = none ∨ s₁.nodes = []

theorem Cleaned.prepared (h : Cleaned lastAck s s₁ changed) :
    ∃ s₂ thorough, (if s₁.nodes = [] then (s₁.clearScoreBoard, false) else (s₁, changed)) =
      (s₂, thorough) ∧ Prepared lastAck s s₂ thorough := by
  by_cases hnil : s₁.nodes = []
  · refine ⟨_, _, if_pos hnil, Consistent.clearScoreBoard s₁ lastAck, ?_, rfl, rfl, ?_, ?_⟩
    · rw [← h.nodes, hnil]
      rfl
    · intro _ hne
      exact absurd rfl hne
    · simp [ScoreBoard1.clearScoreBoard]
  · refine ⟨_, _, if_neg hnil, h.consistent, h.nodes, ?_, ?_, fun hsame _ => h.ackedRtxId hsame,
      h.pointer⟩
    · rw [if_neg hnil, h.fack]
    · simp [hnil, h.newer]

theorem Consistent.updateScoreBoard_cases (h : s.Consistent ack) (hack : ack ≤ lastAck)
    (hfits : s.Fits lastAck blocks) (dupackThreshold : ℤ) :
    ∃ s₁ flag thorough, Prepared lastAck s s₁ thorough ∧
      (thorough = false ∧ sortSacks lastAck blocks = [] ∧
        s.updateScoreBoard lastAck blocks dupackThreshold = some (s₁, flag) ∨
      ¬(thorough = false ∧ sortSacks lastAck blocks = []) ∧
        ∃ k' q c c', s.updateScoreBoard lastAck blocks dupackThreshold =
            some (k'.result, k'.flag) ∧
          (Pass.start lastAck (sortSacks lastAck blocks) flag thorough s₁).Sound
            (lastAck + 1) (lastAck + 1) c ∧ k'.Sound (lastAck + 1) q c' ∧
          Rounds dupackThreshold (lastAck + 1)
            (Pass.start lastAck (sortSacks lastAck blocks) flag thorough s₁) k') := by
  obtain ⟨s₀, flag, changed, hclean, hcleaned⟩ := h.cleanFrom hack ⟨false, false, false⟩ false
  obtain ⟨s₁, thorough, hprep, hprepared⟩ := hcleaned.prepared
  refine ⟨s₁, flag, thorough, hprepared, ?_⟩
  have heq : s.updateScoreBoard lastAck blocks dupackThreshold =
      if thorough = false ∧ sortSacks lastAck blocks = [] then some (s₁, flag)
      else ((Pass.start lastAck (sortSacks lastAck blocks) flag thorough s₁).traverse
        dupackThreshold ((Pass.start lastAck (sortSacks lastAck blocks) flag thorough s₁).room
          + 1)).map fun k => (k.result, k.flag) := by
    rw [updateScoreBoard, cleanRtxQueue, hclean, Option.bind_some]
    dsimp only
    rw [Bool.false_or, hprep]
  by_cases hearly : thorough = false ∧ sortSacks lastAck blocks = []
  · rw [if_pos hearly] at heq
    exact Or.inl ⟨hearly.1, hearly.2, heq⟩
  · rw [if_neg hearly] at heq
    refine Or.inr ⟨hearly, ?_⟩
    have hgrown : s₁.nodes = [] → lastAck < advanceFack (sortSacks lastAck blocks) s₁.fack := by
      intro hnil
      rw [hprepared.fack, if_pos hnil]
      rcases hfits with ⟨n, hn, hlt⟩ | hsacks | hlt
      · have hmem : { n with seq := max n.seq (lastAck + 1) } ∈ afterAck lastAck s.nodes :=
          List.mem_map_of_mem (List.mem_filter.2 ⟨hn, decide_eq_true hlt⟩)
        rw [← hprepared.nodes, hnil] at hmem
        cases hmem
      · refine absurd ⟨?_, hsacks⟩ hearly
        rw [hprepared.fromAck, hnil]
        rfl
      · exact hlt
    obtain ⟨c, hstart⟩ := Pass.start_sound hprepared.consistent hgrown flag thorough
    have htodo : (Pass.start lastAck (sortSacks lastAck blocks) flag thorough s₁).todo ≠ [] := by
      simp only [Pass.start]
      split_ifs with hnil
      · simp
      · exact hnil
    obtain ⟨k', q, c', htraverse, hk', hrounds⟩ := hstart.traverse
      (Nat.lt_succ_of_le (hstart.room htodo)) dupackThreshold
    refine ⟨k', q, c, c', ?_, hstart, hk', hrounds⟩
    rw [heq, htraverse, Option.map_some]

theorem Consistent.updateScoreBoard (h : s.Consistent ack) (hack : ack ≤ lastAck)
    (hfits : s.Fits lastAck blocks) (dupackThreshold : ℤ) :
    ∃ s' flag, s.updateScoreBoard lastAck blocks dupackThreshold = some (s', flag) ∧
      s'.Consistent lastAck := by
  obtain ⟨s₁, flag, thorough, hprepared, ⟨-, -, heq⟩ | ⟨-, k', q, c, c', heq, -, hk', -⟩⟩ :=
    h.updateScoreBoard_cases hack hfits dupackThreshold
  · exact ⟨s₁, flag, heq, hprepared.consistent⟩
  · exact ⟨k'.result, k'.flag, heq, hk'.result⟩

end ScoreBoard1

namespace AckedBoard

open ScoreBoard1 ScoreBoardNode1

variable {s s' : AckedBoard} {call : BoardCall} {calls : List BoardCall}

/-- Acknowledgements do not go back. -/
def InOrder (s : AckedBoard) : BoardCall → Prop
  | .update lastAck _ _ => s.highestAck ≤ lastAck
  | _ => True

/-- A scoreboard that becomes empty gets no block that ends at the acknowledgement. -/
def Fits (s : AckedBoard) : BoardCall → Prop
  | .update lastAck blocks _ => s.board.Fits lastAck blocks
  | _ => True

/-- Each call, for the state that the calls before it have left. -/
abbrev Throughout (P : AckedBoard → BoardCall → Prop) (s : AckedBoard) (calls : List BoardCall) :
    Prop :=
  (Machine.silent AckedBoard.step).RunsWith P s calls

instance : ∀ (s : AckedBoard) (call : BoardCall), Decidable (s.InOrder call)
  | s, .update lastAck _ _ => inferInstanceAs (Decidable (s.highestAck ≤ lastAck))
  | _, .getNextRetran => inferInstanceAs (Decidable True)
  | _, .markRetran _ => inferInstanceAs (Decidable True)
  | _, .markLoss _ => inferInstanceAs (Decidable True)
  | _, .clear => inferInstanceAs (Decidable True)

instance : ∀ (s : AckedBoard) (call : BoardCall), Decidable (s.Fits call)
  | s, .update lastAck blocks _ => inferInstanceAs (Decidable ((∃ n ∈ s.board.nodes,
      lastAck < n.getEnd) ∨ sortSacks lastAck blocks = [] ∨
        lastAck < advanceFack (sortSacks lastAck blocks) 0))
  | _, .getNextRetran => inferInstanceAs (Decidable True)
  | _, .markRetran _ => inferInstanceAs (Decidable True)
  | _, .markLoss _ => inferInstanceAs (Decidable True)
  | _, .clear => inferInstanceAs (Decidable True)

theorem step_consistent (h : s.board.Consistent s.highestAck) (hcall : s.InOrder call)
    (hfits : s.Fits call) :
    ∃ s', s.step call = some s' ∧ s'.board.Consistent s'.highestAck := by
  cases call with
  | update lastAck blocks dupackThreshold =>
    obtain ⟨board, flag, heq, hboard⟩ := h.updateScoreBoard hcall hfits dupackThreshold
    refine ⟨⟨board, lastAck⟩, ?_, hboard⟩
    rw [AckedBoard.step, heq, Option.map_some]
  | getNextRetran => exact ⟨_, rfl, h.getNextRetran⟩
  | markRetran sndNxt =>
    by_cases hseqno : s.board.getNextRetran.1 = -1
    · refine ⟨⟨s.board.getNextRetran.2, s.highestAck⟩, ?_, h.getNextRetran⟩
      rw [AckedBoard.step]
      exact if_pos hseqno
    · obtain ⟨board, heq, hboard⟩ := h.markRetran hseqno sndNxt
      refine ⟨⟨board, s.highestAck⟩, ?_, hboard⟩
      rw [AckedBoard.step]
      dsimp only
      rw [if_neg hseqno, heq, Option.map_some]
  | markLoss sndNxt =>
    obtain ⟨board, heq, hboard⟩ := h.markLoss sndNxt
    refine ⟨⟨board, s.highestAck⟩, ?_, hboard⟩
    rw [AckedBoard.step, heq, Option.map_some]
  | clear => exact ⟨_, rfl, Consistent.clearScoreBoard _ _⟩

theorem run_consistent (h : s.board.Consistent s.highestAck) (hcalls : Throughout InOrder s calls)
    (hfits : Throughout Fits s calls) :
    ∃ s', s.run calls = some s' ∧ s'.board.Consistent s'.highestAck := by
  obtain ⟨s', as, hrun, h', -⟩ := Machine.RunsWith.exists_run (Q := fun _ _ => True)
    (I := fun s : AckedBoard => s.board.Consistent s.highestAck) (fun s call hs hok => by
      obtain ⟨s₁, hstep, h₁⟩ := step_consistent hs hok.1 hok.2
      exact ⟨s₁, (), Machine.silent_step_iff.2 hstep, h₁, trivial⟩) (Machine.RunsWith.and hcalls hfits) h
  exact ⟨s', by rw [AckedBoard.run, ← Machine.silent_run, hrun]; rfl, h'⟩

/-- No assertion fails, the nodes are consecutive and not empty from the first packet that is not
acknowledged, and the counters count the packets of the SACKED and of the LOST nodes. -/
theorem counters_exact (hcalls : Throughout InOrder init calls)
    (hfits : Throughout Fits init calls) :
    ∃ s, init.run calls = some s ∧ (∃ c, Linked (s.highestAck + 1) s.board.nodes c) ∧
      s.board.sackOut = packets .sacked s.board.nodes ∧
      s.board.fackOut = packets .lost s.board.nodes := by
  obtain ⟨s, hrun, h⟩ := run_consistent Consistent.init hcalls hfits
  exact ⟨s, hrun, h.linked, h.sackOut, h.fackOut⟩

/-- Losses, two retransmissions of which one is lost again, a timeout and an acknowledgement into
the middle of a node. -/
def lossyCalls : List BoardCall :=
  [.update 0 [(3, 6), (8, 10)] 3, .markRetran 10, .markRetran 10, .update 0 [(8, 13)] 3,
    .markRetran 13, .markLoss 15, .update 3 [(10, 12), (8, 14)] 3, .getNextRetran, .markRetran 15,
    .update 15 [(15, 16), (18, 20)] 3]

theorem counters_exact_lossyCalls :
    ∃ s, init.run lossyCalls = some s ∧ (∃ c, Linked (s.highestAck + 1) s.board.nodes c) ∧
      s.board.sackOut = packets .sacked s.board.nodes ∧
      s.board.fackOut = packets .lost s.board.nodes :=
  counters_exact (by decide +kernel) (by decide +kernel)

/-- A D-SACK for the packet that is acknowledged leaves a node from packet 6 to packet 5. -/
theorem not_counters_exact_dsack :
    ¬∀ calls, Throughout InOrder init calls →
      ∃ s, init.run calls = some s ∧ (∃ c, Linked (s.highestAck + 1) s.board.nodes c) ∧
        s.board.sackOut = packets .sacked s.board.nodes ∧
        s.board.fackOut = packets .lost s.board.nodes := by
  intro h
  obtain ⟨s, hrun, ⟨c, hl⟩, -⟩ := h [.update 5 [(5, 6)] 3] (by decide)
  have hs : init.run [.update 5 [(5, 6)] 3] =
      some ⟨⟨[⟨.inflight, 6, 5, 0⟩], none, -1, 0, 5, 0, 0, -1⟩, 5⟩ := by decide +kernel
  obtain rfl := Option.some.inj (hrun.symm.trans hs)
  exact absurd hl.2.1 (by decide)

end AckedBoard

end Ns2
