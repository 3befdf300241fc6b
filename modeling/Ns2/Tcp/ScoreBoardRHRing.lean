import Ns2.Tcp.ScoreBoardRH

/-! What `GetNextRetran` of the rate-halving board returns: the ring holds the packets from `start`
on, and those that have been SACKed say so. -/

namespace Ns2

namespace ScoreBoardRH

open ScoreBoardRHNode

variable {i rhId m : ℤ} {S' : Finset ℤ} {n : ℕ} {x : ScoreBoardRHNode} {r : ScoreBoardRH × ℤ}

/-- The ring holds consecutive packets from `start` on; those of `S` are SACKed. -/
structure Rep (s : ScoreBoardRH) (start : ℤ) (S : Finset ℤ) : Prop where
  low : 0 ≤ start
  nonneg : 0 ≤ s.length
  small : s.length < sbsize
  first : s.first = start % sbsize
  seqNo : ∀ i, start ≤ i → i < start + s.length → (s.node i).seqNo = i
  below : ∀ i ∈ S, i < start + s.length
  sacked : ∀ i ∈ S, start ≤ i → (s.node i).sackFlag = true

/-- The node in front of the right edge has its number, in use or not. -/
structure Ready (s : ScoreBoardRH) (start : ℤ) (S : Finset ℤ) : Prop extends Rep s start S where
  last : (s.node (start + s.length - 1)).seqNo = start + s.length - 1

variable {s s' : ScoreBoardRH} {start lastAck d : ℤ} {S : Finset ℤ}
  {f : ScoreBoardRHNode → ScoreBoardRHNode × ℤ}

theorem node_write_self (s : ScoreBoardRH) (i : ℤ) (x : ScoreBoardRHNode) :
    (s.write i x).node i = x := Function.update_self _ _ _

theorem node_write_of_ne {j : ℤ} (hne : j ≠ i) (h : |j - i| < sbsize) (x : ScoreBoardRHNode) :
    (s.write i x).node j = s.node j := by
  exact Function.update_of_ne (emod_ne_emod hne h) _ _

theorem Rep.ready (h : s.Rep start S) (hne : s.length ≠ 0) : s.Ready start S := by
  have := h.nonneg
  exact ⟨h, h.seqNo _ (by omega) (by omega)⟩

theorem Rep.mono (h : s.Rep start S) (hS : S' ⊆ S) : s.Rep start S' :=
  ⟨h.low, h.nonneg, h.small, h.first, h.seqNo, fun i hi => h.below i (hS hi),
    fun i hi => h.sacked i (hS hi)⟩

theorem Ready.mono (h : s.Ready start S) (hS : S' ⊆ S) : s.Ready start S' :=
  ⟨h.toRep.mono hS, h.last⟩

theorem Rep.sbn_first (h : s.Rep start S) (hne : s.length ≠ 0) :
    (s.sbn s.first).seqNo = start := by
  have := h.nonneg
  rw [h.first]
  exact h.seqNo start le_rfl (by omega)

theorem Rep.node_first (h : s.Rep start S) (hne : s.length ≠ 0) :
    (s.node s.first).seqNo = start := by
  rw [node, h.first, Int.emod_emod_of_dvd _ dvd_rfl, ← h.first]
  exact h.sbn_first hne

theorem Ready.lastSeqNo (h : s.Ready start S) : s.lastSeqNo = start + s.length - 1 := by
  have hindex : (s.first + s.length + sbsize - 1) % sbsize = (start + s.length - 1) % sbsize := by
    rw [h.first, show start % sbsize + s.length + sbsize - 1 =
      start % sbsize + (s.length - 1) + sbsize by omega, Int.add_emod_right, Int.emod_add_emod]
    congr 1
    omega
  rw [ScoreBoardRH.lastSeqNo, hindex]
  exact h.last

theorem each_spec {a b : ℤ} (hwin : b - a ≤ sbsize) (ha : a ≤ i) (hb : i + n ≤ b)
    (r : ScoreBoardRH × ℤ) :
    (each f n i r).1.length = r.1.length ∧ (each f n i r).1.first = r.1.first ∧
      ∀ j, a ≤ j → j < b → (each f n i r).1.node j =
        if i ≤ j ∧ j < i + n then (f (r.1.node j)).1 else r.1.node j := by
  induction n generalizing i r with
  | zero =>
    refine ⟨rfl, rfl, fun j _ _ => ?_⟩
    rw [if_neg (by push_cast; omega)]
    rfl
  | succ n ih =>
    push_cast at hb ⊢
    obtain ⟨hlen, hfirst, hnode⟩ := ih (show a ≤ i + 1 by omega) (by omega)
      (r.1.write i (f (r.1.node i)).1, r.2 + (f (r.1.node i)).2)
    refine ⟨hlen, hfirst, fun j h₁ h₂ => ?_⟩
    rw [each, hnode j h₁ h₂]
    dsimp only
    by_cases hj : j = i
    · subst hj
      rw [if_neg (by omega), if_pos (by omega), node_write_self]
    · rw [node_write_of_ne hj (by rw [abs_lt]; omega)]
      congr 1
      simp only [eq_iff_iff]
      omega

theorem Ready.each (h : s.Ready start S) {T : Finset ℤ} (hn : n ≤ s.length)
    (hseq : ∀ x, (f x).1.seqNo = x.seqNo) (hkeep : ∀ x, x.sackFlag = true → (f x).1.sackFlag = true)
    (hset : ∀ x, x.seqNo ∈ T → (f x).1.sackFlag = true) (hT : ∀ i ∈ T, i < start + n) (d : ℤ) :
    (ScoreBoardRH.each f n start (s, d)).1.Ready start (S ∪ T) ∧
      (ScoreBoardRH.each f n start (s, d)).1.length = s.length := by
  have hsmall := h.small
  have hnonneg := h.nonneg
  have hwin : start + s.length - (start - 1) ≤ sbsize := by omega
  obtain ⟨hlen, hfirst, hnode⟩ := each_spec hwin (show start - 1 ≤ start by omega)
    (show start + n ≤ start + s.length by omega) (s, d) (f := f)
  have hnumber : ∀ j, start - 1 ≤ j → j < start + s.length →
      ((ScoreBoardRH.each f n start (s, d)).1.node j).seqNo = (s.node j).seqNo := by
    intro j h₁ h₂
    rw [hnode j h₁ h₂]
    split_ifs
    · exact hseq _
    · rfl
  refine ⟨⟨⟨h.low, ?_, ?_, ?_, fun i h₁ h₂ => ?_, fun i hi => ?_, fun i hi h₁ => ?_⟩, ?_⟩, hlen⟩
  · exact hlen ▸ hnonneg
  · exact hlen ▸ hsmall
  · exact hfirst.trans h.first
  · rw [hlen] at h₂
    rw [hnumber i (by omega) h₂, h.seqNo i h₁ h₂]
  · rw [hlen]
    rcases Finset.mem_union.1 hi with hi | hi
    · exact h.below i hi
    · have := hT i hi
      dsimp only
      omega
  · have hlt : i < start + s.length := by
      rcases Finset.mem_union.1 hi with hi | hi
      · exact h.below i hi
      · have := hT i hi
        omega
    rw [hnode i (by omega) hlt]
    rcases Finset.mem_union.1 hi with hi | hi
    · have hold := h.sacked i hi h₁
      split_ifs
      · exact hkeep _ hold
      · exact hold
    · rw [if_pos ⟨h₁, hT i hi⟩]
      apply hset
      dsimp only
      rwa [h.seqNo i h₁ hlt]
  · rw [hlen]
    dsimp only
    rw [hnumber _ (by omega) (by omega), h.last]

theorem Ready.each_same (h : s.Ready start S) (hn : n ≤ s.length)
    (hsame : ∀ x, (f x).1.seqNo = x.seqNo ∧ (f x).1.sackFlag = x.sackFlag) (d : ℤ) :
    (ScoreBoardRH.each f n start (s, d)).1.Ready start S ∧
      (ScoreBoardRH.each f n start (s, d)).1.length = s.length := by
  have heach := h.each hn (fun x => (hsame x).1) (fun x hx => (hsame x).2.trans hx)
    (T := ∅) (by simp) (by simp) d
  rwa [Finset.union_empty] at heach

theorem Rep.write (h : s.Rep start S) (h₁ : start ≤ i) (h₂ : i < start + s.length)
    (hseq : x.seqNo = i) (hS : S' ⊆ S) (hsack : i ∈ S' → x.sackFlag = true) :
    (s.write i x).Rep start S' := by
  have hsmall := h.small
  refine ⟨h.low, h.nonneg, hsmall, h.first, fun j h₃ h₄ => ?_, fun j hj => h.below j (hS hj),
    fun j hj h₃ => ?_⟩
  · change j < start + s.length at h₄
    by_cases hji : j = i
    · rw [hji, node_write_self, hseq]
    · rw [node_write_of_ne hji (by rw [abs_lt]; omega)]
      exact h.seqNo j h₃ h₄
  · have h₄ := h.below j (hS hj)
    by_cases hji : j = i
    · subst hji
      rw [node_write_self]
      exact hsack hj
    · rw [node_write_of_ne hji (by rw [abs_lt]; omega)]
      exact h.sacked j (hS hj) h₃

theorem Rep.extendOne (h : s.Rep start S) (hroom : s.length + 1 < sbsize) :
    ({ s.write (start + s.length) (new (start + s.length)) with
      length := s.length + 1 } : ScoreBoardRH).Ready start S := by
  have hnonneg := h.nonneg
  have hne : ∀ j, start ≤ j → j < start + s.length →
      (s.write (start + s.length) (new (start + s.length))).node j = s.node j := by
    intro j h₁ h₂
    rw [node_write_of_ne (by omega) (by rw [abs_lt]; omega)]
  have hself := node_write_self s (start + s.length) (new (start + s.length))
  refine ⟨⟨h.low, ?_, hroom, h.first, fun j h₁ h₂ => ?_, fun j hj => ?_, fun j hj h₁ => ?_⟩, ?_⟩
  · dsimp only
    omega
  · dsimp only at h₂
    change ((s.write (start + s.length) (new (start + s.length))).node j).seqNo = j
    by_cases hj : j = start + s.length
    · rw [hj, hself]
      rfl
    · rw [hne j h₁ (by omega)]
      exact h.seqNo j h₁ (by omega)
  · have := h.below j hj
    dsimp only
    omega
  · change ((s.write (start + s.length) (new (start + s.length))).node j).sackFlag = true
    rw [hne j h₁ (h.below j hj)]
    exact h.sacked j hj h₁
  · dsimp only
    change ((s.write (start + s.length) (new (start + s.length))).node
      (start + (s.length + 1) - 1)).seqNo = start + (s.length + 1) - 1
    rw [show start + (s.length + 1) - 1 = start + s.length by omega, hself]
    rfl

theorem Ready.extend (h : s.Ready start S) (heq : extend n (start + s.length) s = some s') :
    s'.Ready start S ∧ s'.length = s.length + n := by
  induction n generalizing s with
  | zero =>
    obtain rfl := Option.some.inj heq
    exact ⟨h, by simp⟩
  | succ n ih =>
    rw [ScoreBoardRH.extend] at heq
    dsimp only at heq
    split_ifs at heq with hroom
    rw [add_assoc] at heq
    obtain ⟨hs', hlen⟩ := ih (h.extendOne (not_le.1 hroom)) heq
    refine ⟨hs', ?_⟩
    rw [hlen]
    push_cast
    omega

theorem Ready.extendTo (h : s.Ready start S) {right : ℤ} (heq : s.extendTo right = some s') :
    s'.Ready start S ∧ s'.length = max s.length (right - start) := by
  have hnonneg := h.nonneg
  rw [ScoreBoardRH.extendTo, h.lastSeqNo] at heq
  split_ifs at heq with hright
  · rw [show start + s.length - 1 + 1 = start + s.length by omega] at heq
    obtain ⟨hs', hlen⟩ := h.extend heq
    exact ⟨hs', by omega⟩
  · obtain rfl := Option.some.inj heq
    exact ⟨h, by omega⟩

theorem coverNode_seqNo (l r : ℤ) (x : ScoreBoardRHNode) :
    (coverNode l r x).1.seqNo = x.seqNo := by
  rw [coverNode]
  split_ifs <;> rfl

theorem coverNode_keeps {l r : ℤ} (hx : x.sackFlag = true) :
    (coverNode l r x).1.sackFlag = true := by
  rw [coverNode]
  split
  · rfl
  · exact hx

theorem coverNode_of_mem {l r : ℤ} (hx : x.seqNo ∈ Finset.Ico l r) :
    (coverNode l r x).1.sackFlag = true := by
  rw [coverNode, if_pos (Finset.mem_Ico.1 hx)]

theorem Ready.updateBlock (h : s.Ready start S) {block : ℤ × ℤ}
    (hblock : s.length = 0 → start < block.2) (heq : updateBlock rhId (s, d) block = some r) :
    r.1.Ready start (S ∪ Finset.Ico block.1 block.2) ∧ r.1.length ≠ 0 := by
  obtain ⟨s₁, hextend, rfl⟩ := Option.map_eq_some_iff.1 heq
  obtain ⟨h₁, hlen⟩ := h.extendTo hextend
  have hnonneg := h.nonneg
  have hne : s₁.length ≠ 0 := by omega
  have hbelow : ∀ i ∈ Finset.Ico block.1 block.2, i < start + (block.2 - start).toNat := by
    intro i hi
    have := (Finset.mem_Ico.1 hi).2
    omega
  obtain ⟨h₂, hlen₂⟩ := h₁.each (show ((block.2 - start).toNat : ℤ) ≤ s₁.length by omega)
    (coverNode_seqNo block.1 block.2) (fun x => coverNode_keeps)
    (fun x => coverNode_of_mem) hbelow 0
  rw [cover, h₁.node_first hne]
  exact ⟨⟨⟨h₂.low, h₂.nonneg, h₂.small, h₂.first, h₂.seqNo, h₂.below, h₂.sacked⟩, h₂.last⟩, hlen₂ ▸ hne⟩

/-- All blocks; there is something to do only when the ring is not empty, or becomes so. -/
theorem Ready.updateBlocks (h : s.Ready start S) {blocks : List (ℤ × ℤ)}
    (hblocks : s.length = 0 → ∀ b ∈ blocks, start < b.2)
    (heq : blocks.foldlM (ScoreBoardRH.updateBlock rhId) (s, d) = some r) :
    r.1.Ready start (blocks.foldl (fun S b => S ∪ Finset.Ico b.1 b.2) S) ∧
      (r.1.length = 0 → s.length = 0 ∧ blocks = []) := by
  induction blocks generalizing s S d with
  | nil =>
    obtain rfl := Option.some.inj heq
    exact ⟨h, fun hlen => ⟨hlen, rfl⟩⟩
  | cons b blocks ih =>
    rw [List.foldlM_cons] at heq
    obtain ⟨r₁, hr₁, heq⟩ := Option.bind_eq_some_iff.1 heq
    obtain ⟨h₁, hne⟩ := h.updateBlock (fun hlen => hblocks hlen b List.mem_cons_self) hr₁
    obtain ⟨h₂, hlen⟩ := ih h₁ (fun hlen => absurd hlen hne) heq
    exact ⟨h₂, fun hnil => absurd (hlen hnil).1 hne⟩

theorem Rep.advanceOne (h : s.Rep start S) (hne : s.length ≠ 0) (hseq : x.seqNo = start) (rhId : ℤ)
    :
    (({ s with
      first := (s.first + 1) % sbsize
      length := s.length - 1
      retranSacked := rhId } : ScoreBoardRH).write start x).Ready (start + 1) S := by
  have hnonneg := h.nonneg
  have hsmall := h.small
  have hself := node_write_self s start x
  have hnode : ∀ j, start < j → j < start + s.length → (s.write start x).node j = s.node j :=
    fun j h₁ h₂ => node_write_of_ne (by omega) (by rw [abs_lt]; omega) x
  have hlow := h.low
  refine ⟨⟨by omega, ?_, ?_, ?_, fun j h₁ h₂ => ?_, fun j hj => ?_, fun j hj h₁ => ?_⟩, ?_⟩
  · change 0 ≤ s.length - 1
    omega
  · change s.length - 1 < sbsize
    omega
  · change (s.first + 1) % sbsize = (start + 1) % sbsize
    rw [h.first, Int.emod_add_emod]
  · change j < start + 1 + (s.length - 1) at h₂
    change ((s.write start x).node j).seqNo = j
    rw [hnode j (by omega) (by omega)]
    exact h.seqNo j (by omega) (by omega)
  · change j < start + 1 + (s.length - 1)
    have := h.below j hj
    omega
  · change ((s.write start x).node j).sackFlag = true
    rw [hnode j (by omega) (h.below j hj)]
    exact h.sacked j hj (by omega)
  · change ((s.write start x).node (start + 1 + (s.length - 1) - 1)).seqNo =
      start + 1 + (s.length - 1) - 1
    rw [show start + 1 + (s.length - 1) - 1 = start + (s.length - 1) by omega]
    by_cases hone : s.length - 1 = 0
    · rw [hone, add_zero, hself, hseq]
    · rw [hnode _ (by omega) (by omega)]
      exact h.seqNo _ (by omega) (by omega)

theorem Rep.advance (h : s.Rep start S) (hne : s.length ≠ 0) (hack : start + n = lastAck + 1)
    (rhId d : ℤ) :
    ∃ r start', ScoreBoardRH.advance lastAck rhId n start (s, d) = some r ∧
      r.1.Ready start' S ∧ start' = min (lastAck + 1) (start + s.length) ∧
      r.1.length = start + s.length - start' := by
  have hnonneg := h.nonneg
  have hsmall := h.small
  induction n generalizing s start d with
  | zero =>
    refine ⟨(s, d), start, rfl, h.ready hne, ?_, ?_⟩
    · push_cast at hack
      omega
    · dsimp only
      omega
  | succ n ih =>
    push_cast at hack
    have hseq := h.seqNo start le_rfl (by omega)
    rw [ScoreBoardRH.advance]
    dsimp only
    rw [if_pos (by omega), if_neg (by rw [h.first]; omega)]
    have hnext := h.advanceOne hne (x := { s.node start with
      ackFlag := true
      sackFlag := true
      retran := false
      sndNxt := if (s.node start).retran then 0 else (s.node start).sndNxt }) hseq
      (if (s.node start).retran then rhId else s.retranSacked)
    by_cases hlast : s.length - 1 = 0
    · refine ⟨_, start + 1, if_pos hlast, hnext, by omega, ?_⟩
      change s.length - 1 = start + s.length - (start + 1)
      omega
    · obtain ⟨r, start', heq, hr, hstart, hlen⟩ := ih hnext.toRep hlast (by omega)
        (if (s.node start).retran then d + 1 else d) hnext.nonneg hnext.small
      refine ⟨r, start', (if_neg hlast).trans heq, hr, hstart.trans ?_, hlen.trans ?_⟩
      · change min (lastAck + 1) (start + 1 + (s.length - 1)) = _
        congr 1
        omega
      · change start + 1 + (s.length - 1) - start' = _
        omega

theorem firstWhere_cases (p : ℤ → Bool) (n : ℕ) (i : ℤ) :
    ScoreBoard.firstWhere p n i = -1 ∨ i ≤ ScoreBoard.firstWhere p n i ∧
      ScoreBoard.firstWhere p n i < i + n ∧ p (ScoreBoard.firstWhere p n i) = true := by
  induction n generalizing i with
  | zero => exact Or.inl rfl
  | succ n ih =>
    rw [ScoreBoard.firstWhere]
    split_ifs with hp
    · right
      exact ⟨le_rfl, by push_cast; omega, hp⟩
    · rcases ih (i + 1) with hnone | ⟨h₁, h₂, hp⟩
      · exact Or.inl hnone
      · right
        push_cast
        exact ⟨by omega, by omega, hp⟩

theorem Rep.getNextRetran (h : s.Rep start S) {numdupacks : ℤ}
    (hne : s.getNextRetran numdupacks ≠ -1) :
    start ≤ s.getNextRetran numdupacks ∧ s.getNextRetran numdupacks ∉ S := by
  have hsacked : ∀ i ∈ S, start ≤ i → ((s.node i).isHole && !(s.node i).retran &&
      decide ((s.node i).sackCnt ≥ numdupacks)) = false := by
    intro i hi h₁
    simp [isHole, h.sacked i hi h₁]
  rw [ScoreBoardRH.getNextRetran] at hne ⊢
  split_ifs at hne ⊢ with hlen
  · rw [h.node_first hlen] at hne ⊢
    rcases firstWhere_cases (fun i => (s.node i).isHole && !(s.node i).retran &&
      decide ((s.node i).sackCnt ≥ numdupacks)) s.length.toNat start with hnone | ⟨h₁, -, hp⟩
    · exact absurd hnone hne
    · refine ⟨h₁, fun hin => ?_⟩
      rw [hsacked _ hin h₁] at hp
      cases hp
  · exact absurd rfl hne

theorem Rep.markRetran (h : s.Rep start S) (retranSeqno sndNxt rhId : ℤ) :
    (s.markRetran retranSeqno sndNxt rhId).Rep start S := by
  have hnode : ∀ i, ((s.markRetran retranSeqno sndNxt rhId).node i).seqNo = (s.node i).seqNo ∧
      ((s.markRetran retranSeqno sndNxt rhId).node i).sackFlag = (s.node i).sackFlag := by
    intro i
    by_cases hi : i % sbsize = retranSeqno % sbsize <;>
      simp [ScoreBoardRH.markRetran, node, ScoreBoardRH.write, hi]
  refine ⟨h.low, h.nonneg, h.small, h.first, fun i h₁ h₂ => ?_, h.below, fun i hi h₁ => ?_⟩
  · rw [(hnode i).1]
    exact h.seqNo i h₁ h₂
  · rw [(hnode i).2]
    exact h.sacked i hi h₁

theorem Rep.clearScoreBoard (h : s.Rep start S) : s.clearScoreBoard.Rep start ∅ := by
  refine ⟨h.low, le_rfl, show (0 : ℤ) < sbsize by decide, h.first, fun i h₁ h₂ => ?_, by simp, by simp⟩
  change i < start + 0 at h₂
  omega

theorem Rep.timeoutScoreBoard (h : s.Rep start S) (hne : s.length ≠ 0) {sndNxt numdupacks : ℤ}
    (heq : s.timeoutScoreBoard sndNxt numdupacks = some s') :
    s'.Rep start (S.erase start) := by
  rw [ScoreBoardRH.timeoutScoreBoard, if_neg hne] at heq
  obtain ⟨s₁, hextend, rfl⟩ := Option.map_eq_some_iff.1 heq
  obtain ⟨h₁, hlen⟩ := (h.ready hne).extendTo hextend
  have hnonneg := h.nonneg
  have hne₁ : s₁.length ≠ 0 := by omega
  dsimp only
  rw [h₁.node_first hne₁]
  obtain ⟨h₂, hlen₂⟩ := h₁.each_same (f := forceNode numdupacks) (n := s₁.length.toNat) (by omega)
    (fun x => by rw [forceNode]; split_ifs <;> exact ⟨rfl, rfl⟩) 0
  refine h₂.write le_rfl (by omega) ?_ (Finset.erase_subset _ _) ?_
  · rw [renegeNode]
    split_ifs <;> exact h₂.seqNo start le_rfl (by omega)
  · intro hin
    exact absurd rfl (Finset.mem_erase.1 hin).1

theorem Rep.create (hlow : -1 ≤ lastAck) (hlen : s.length = 0)
    (heq : s.create lastAck = some s') : s'.Rep (lastAck + 1) ∅ ∧ s'.length ≠ 0 := by
  rw [ScoreBoardRH.create] at heq
  dsimp only at heq
  split_ifs at heq
  obtain rfl := Option.some.inj heq
  have hone : s.length + 1 = 1 := by omega
  refine ⟨⟨by omega, ?_, ?_, rfl, fun i h₁ h₂ => ?_, by simp, by simp⟩, ?_⟩
  · change 0 ≤ s.length + 1
    omega
  · change s.length + 1 < sbsize
    rw [hone]
    decide
  · change i < lastAck + 1 + (s.length + 1) at h₂
    obtain rfl : i = lastAck + 1 := by omega
    exact congrArg ScoreBoardRHNode.seqNo (node_write_self s _ _)
  · change s.length + 1 ≠ 0
    omega

theorem Rep.countHoles (h : s.Rep start S) (hm : m ≤ start + s.length) :
    (s.countHoles m).Rep start S ∧ (s.countHoles m).length = s.length := by
  rw [ScoreBoardRH.countHoles]
  split_ifs with hne
  · rw [h.node_first hne]
    have hsame : ∀ x, (countNode x).1.seqNo = x.seqNo ∧ (countNode x).1.sackFlag = x.sackFlag := by
      intro x
      rw [countNode]
      split_ifs <;> exact ⟨rfl, rfl⟩
    have hnonneg := h.nonneg
    obtain ⟨h', hlen⟩ := (h.ready hne).each_same
      (show ((m - start).toNat : ℤ) ≤ s.length by omega) hsame 0
    exact ⟨h'.toRep, hlen⟩
  · exact ⟨h, rfl⟩

theorem Rep.checkSndNxt (h : s.Rep start S) (hm : m ≤ start + s.length) :
    (s.checkSndNxt m).1.Rep start S ∧ (s.checkSndNxt m).1.length = s.length := by
  rw [ScoreBoardRH.checkSndNxt]
  split_ifs with hne
  · rw [h.node_first hne]
    have hsame : ∀ x, (lostNode m x).1.seqNo = x.seqNo ∧
        (lostNode m x).1.sackFlag = x.sackFlag := by
      intro x
      rw [lostNode]
      split_ifs <;> exact ⟨rfl, rfl⟩
    have hnonneg := h.nonneg
    obtain ⟨h', hlen⟩ := (h.ready hne).each_same
      (show ((m - start).toNat : ℤ) ≤ s.length by omega) hsame 0
    exact ⟨h'.toRep, hlen⟩
  · exact ⟨h, rfl⟩

theorem sackMax_le {blocks : List (ℤ × ℤ)} {c : ℤ} (hm : m ≤ c) (hblocks : ∀ b ∈ blocks, b.2 ≤ c) :
    blocks.foldl (fun m b => if b.2 > m then b.2 else m) m ≤ c := by
  induction blocks generalizing m with
  | nil => exact hm
  | cons b blocks ih =>
    rw [List.forall_mem_cons] at hblocks
    apply ih ?_ hblocks.2
    dsimp only
    split_ifs
    · exact hblocks.1
    · exact hm

theorem mem_foldl_union {blocks : List (ℤ × ℤ)} {S : Finset ℤ} {x : ℤ} :
    x ∈ blocks.foldl (fun S b => S ∪ Finset.Ico b.1 b.2) S ↔
      x ∈ S ∨ ∃ b ∈ blocks, x ∈ Finset.Ico b.1 b.2 := by
  induction blocks generalizing S with
  | nil => simp
  | cons b blocks ih =>
    rw [List.foldl_cons, ih, Finset.mem_union, List.exists_mem_cons_iff, or_assoc]

theorem Ready.blocks (h : s.Ready start S) {blocks : List (ℤ × ℤ)} {r' : ScoreBoardRH × ℤ}
    (hblocks : ∀ b ∈ blocks, b.1 < b.2) (hahead : s.length = 0 → ∀ b ∈ blocks, start < b.2)
    (heq : blocks.foldlM (ScoreBoardRH.updateBlock rhId) (s, d) = some r) {lost : ℤ}
    (hm : m = blocks.foldl (fun m b => if b.2 > m then b.2 else m) 0)
    (hr' : r' = (((r.1.countHoles m).checkSndNxt m).1, lost)) :
    r'.1.Rep start (blocks.foldl (fun S b => S ∪ Finset.Ico b.1 b.2) S) ∧
      (blocks = [] → r'.1.length = s.length) := by
  obtain ⟨h₁, -⟩ := h.updateBlocks hahead heq
  have hle : m ≤ start + r.1.length := by
    have := h₁.low
    have := h₁.nonneg
    rw [hm]
    apply sackMax_le (by omega)
    intro b hb
    have hlt := hblocks b hb
    have := h₁.below (b.2 - 1) (mem_foldl_union.2 (Or.inr ⟨b, hb, Finset.mem_Ico.2 (by omega)⟩))
    omega
  obtain ⟨h₂, hlen₂⟩ := h₁.countHoles hle
  obtain ⟨h₃, hlen₃⟩ := h₂.checkSndNxt (hlen₂ ▸ hle)
  subst hr'
  refine ⟨h₃, fun hnil => ?_⟩
  subst hnil
  obtain rfl := Option.some.inj heq
  exact hlen₃.trans hlen₂

/-- The packets up to `last_ack` leave the ring and those of the blocks are SACKed. Without nodes
the ring begins anew behind `last_ack`; when it has lost its last node in this call, it goes on where
it was. -/
theorem Rep.updateScoreBoard (h : s.Rep start S) (hlow : -1 ≤ lastAck) {blocks : List (ℤ × ℤ)}
    (hblocks : ∀ b ∈ blocks, lastAck < b.1 ∧ b.1 < b.2)
    (heq : s.updateScoreBoard lastAck blocks rhId = some r) :
    ∃ start', r.1.Rep start' (blocks.foldl (fun S b => S ∪ Finset.Ico b.1 b.2)
        (if RHSender.Empties lastAck s then ∅ else S)) ∧
      (r.1.length ≠ 0 → ¬RHSender.Overruns lastAck blocks s → lastAck < start') := by
  have hordered : ∀ b ∈ blocks, b.1 < b.2 := fun b hb => (hblocks b hb).2
  have hnonneg := h.nonneg
  rw [ScoreBoardRH.updateScoreBoard] at heq
  by_cases hlen : s.length = 0
  · rw [if_pos (show RHSender.Empties lastAck s from Or.inl hlen)]
    by_cases hnil : blocks = []
    · rw [if_pos ⟨hnil, hlen⟩] at heq
      obtain rfl := Option.some.inj heq
      subst hnil
      exact ⟨start, h.mono (Finset.empty_subset S), fun hne => absurd hlen hne⟩
    · rw [if_neg fun hboth => hnil hboth.1, if_pos hlen] at heq
      obtain ⟨s₁, hcreate, heq⟩ := Option.bind_eq_some_iff.1 heq
      obtain ⟨h₁, hne₁⟩ := Rep.create hlow hlen hcreate
      dsimp only at heq
      rw [h₁.sbn_first hne₁, if_neg (by omega), Option.bind_some] at heq
      obtain ⟨r₁, hfold, rfl⟩ := Option.map_eq_some_iff.1 heq
      refine ⟨lastAck + 1, ?_, fun _ _ => by omega⟩
      exact ((h₁.ready hne₁).blocks hordered (fun hlen => absurd hlen hne₁) hfold rfl rfl).1
  · rw [if_neg fun hboth => hlen hboth.2, if_neg hlen, Option.bind_some] at heq
    dsimp only at heq
    have hlast := (h.ready hlen).lastSeqNo
    rw [h.sbn_first hlen] at heq
    by_cases hle : start ≤ lastAck
    · rw [if_pos hle] at heq
      obtain ⟨r₀, start', hadvance, h₀, hstart, hlen₀⟩ := h.advance hlen
        (show start + (lastAck + 1 - start).toNat = lastAck + 1 by omega) rhId 0
      rw [hadvance, Option.bind_some] at heq
      obtain ⟨r₁, hfold, rfl⟩ := Option.map_eq_some_iff.1 heq
      have hsub : (if RHSender.Empties lastAck s then ∅ else S) ⊆ S := by
        split_ifs
        · exact Finset.empty_subset S
        · exact Finset.Subset.refl S
      have hahead : r₀.1.length = 0 → ∀ b ∈ blocks, start' < b.2 := by
        intro _ b hb
        have := hblocks b hb
        omega
      obtain ⟨h₁, hsame⟩ := (h₀.mono hsub).blocks hordered hahead hfold rfl rfl
      refine ⟨start', h₁, fun hne hover => ?_⟩
      by_contra hlt
      have hnil : blocks = [] := by
        by_contra hnil
        exact hover ⟨hlen, by omega, hnil⟩
      rw [hsame hnil] at hne
      omega
    · rw [if_neg hle, Option.bind_some] at heq
      obtain ⟨r₁, hfold, rfl⟩ := Option.map_eq_some_iff.1 heq
      have hnot : ¬RHSender.Empties lastAck s := by
        rintro (hzero | hlow)
        · exact hlen hzero
        · omega
      rw [if_neg hnot]
      refine ⟨start, ?_, fun _ _ => by omega⟩
      exact ((h.ready hlen).blocks hordered (fun hzero => absurd hzero hlen) hfold rfl rfl).1

end ScoreBoardRH

namespace RHSender

open ScoreBoardRH

variable {fresh : ScoreBoardRH} {t t' : RHSender} {o : ScoreBoardRHOp} {os : List ScoreBoardRHOp}

/-- The ring knows all packets that are SACKed, up to those that were taken back. -/
structure Inv (t : RHSender) : Prop where
  low : -1 ≤ t.lastAck
  rep : ∃ start, t.board.Rep start (t.covered \ t.reneged) ∧
    (t.board.length ≠ 0 → t.overran = false → t.lastAck < start)

theorem inv_init (fresh : ScoreBoardRH) : (init fresh).Inv := by
  refine ⟨le_rfl, 0, ⟨le_rfl, le_rfl, show (0 : ℤ) < sbsize by decide, rfl, fun i h₁ h₂ => ?_,
    by simp [init], by simp [init]⟩, fun hne => absurd rfl hne⟩
  change i < 0 + 0 at h₂
  omega

theorem Inv.step (h : t.Inv) (hsends : t.Sends o) {a : ℤ} (hstep : machine.step t o = some (t', a)) :
    t'.Inv := by
  obtain ⟨start, hrep, hlast⟩ := h.rep
  cases o with
  | update lastAck blocks rhId =>
    obtain ⟨r, heq, hr⟩ := Option.map_eq_some_iff.1 hstep
    obtain ⟨rfl, -⟩ := Prod.mk.inj hr
    have hlow := h.low.trans hsends.1
    obtain ⟨start', hrep', hlast'⟩ := hrep.updateScoreBoard hlow hsends.2 heq
    refine ⟨hlow, start', hrep'.mono ?_, fun hne hover => hlast' hne (of_decide_eq_false hover)⟩
    intro x hx
    simp only [packets, Finset.mem_sdiff, Finset.mem_union, mem_foldl_union, Finset.notMem_empty,
      false_or] at hx ⊢
    obtain ⟨hin, hout⟩ := hx
    by_cases hblock : ∃ b ∈ blocks, x ∈ Finset.Ico b.1 b.2
    · exact Or.inr hblock
    · left
      have hin := hin.resolve_right hblock
      split_ifs at hin hout ⊢
      · cases hin
      · exact Finset.mem_sdiff.2 ⟨hin, fun hren => hout ⟨hren, hblock⟩⟩
  | markRetran retranSeqno sndNxt rhId =>
    obtain ⟨rfl, -⟩ := Prod.mk.inj (Option.some.inj hstep)
    exact ⟨h.low, start, hrep.markRetran retranSeqno sndNxt rhId, hlast⟩
  | timeout sndNxt numdupacks =>
    obtain ⟨board, heq, hr⟩ := Option.map_eq_some_iff.1 hstep
    obtain ⟨rfl, -⟩ := Prod.mk.inj hr
    by_cases hlen : t.board.length = 0
    · rw [ScoreBoardRH.timeoutScoreBoard, if_pos hlen] at heq
      obtain rfl := Option.some.inj heq
      refine ⟨h.low, start, ?_, hlast⟩
      dsimp only
      rw [if_pos hlen]
      exact hrep
    · refine ⟨h.low, start, ?_, fun _ => hlast hlen⟩
      dsimp only
      rw [if_neg hlen, hrep.node_first hlen, Finset.sdiff_insert]
      exact hrep.timeoutScoreBoard hlen heq
  | clear =>
    obtain ⟨rfl, -⟩ := Prod.mk.inj (Option.some.inj hstep)
    exact ⟨h.low, start, hrep.clearScoreBoard, fun hne => absurd rfl hne⟩

/-- A packet that is returned has not been SACKed since the board was last empty, or a timeout has
taken that back; it is above the last acknowledgement, if that has not overrun the board. -/
theorem getNextRetran_unsacked {as : List ℤ} (hos : machine.RunsWith Sends (init fresh) os)
    (hrun : machine.run (init fresh) os = some (t, as)) (numdupacks : ℤ)
    (hne : t.board.getNextRetran numdupacks ≠ -1) :
    (t.board.getNextRetran numdupacks ∈ t.covered → t.board.getNextRetran numdupacks ∈ t.reneged) ∧
      (t.overran = false → t.lastAck < t.board.getNextRetran numdupacks) := by
  have h : t.Inv := hos.keeps (fun s o s' a hs ho hstep => hs.step ho hstep) hrun (inv_init fresh)
  obtain ⟨start, hrep, hlast⟩ := h.rep
  obtain ⟨hle, hnot⟩ := hrep.getNextRetran hne
  have hlen : t.board.length ≠ 0 := by
    intro hlen
    rw [ScoreBoardRH.getNextRetran, if_neg (not_not.2 hlen)] at hne
    exact hne rfl
  refine ⟨fun hin => ?_, fun hover => (hlast hlen hover).trans_le hle⟩
  by_contra hout
  exact hnot (Finset.mem_sdiff.2 ⟨hin, hout⟩)

/-- Memory of zeros. -/
def blank : ScoreBoardRH := ⟨0, 0, 0, 0, fun _ => ScoreBoardRHNode.new 0⟩

/-- Packet 1 is missing in three acknowledgements, is sent again and acknowledged with a new hole. -/
def missingTwice : List ScoreBoardRHOp :=
  [.update 0 [(2, 3)] 1, .update 0 [(2, 4)] 1, .update 0 [(2, 5)] 1, .markRetran 1 5 1,
    .update 4 [(6, 8)] 1, .timeout 8 3]

theorem getNextRetran_unsacked_missingTwice :
    ∃ t as, machine.run (init blank) missingTwice = some (t, as) ∧
      (t.board.getNextRetran 3 ∈ t.covered → t.board.getNextRetran 3 ∈ t.reneged) ∧
      (t.overran = false → t.lastAck < t.board.getNextRetran 3) := by
  have hret : (machine.run (init blank) missingTwice).map (fun r => r.1.board.getNextRetran 3) =
      some 5 := by decide +kernel
  obtain ⟨⟨t, as⟩, hrun, hret⟩ := Option.map_eq_some_iff.1 hret
  refine ⟨t, as, hrun, getNextRetran_unsacked (by decide +kernel) hrun 3 ?_⟩
  rw [hret]
  decide

/-- Packet 2 is SACKed; then only packet 1 is acknowledged, and the timeout takes this for a renege. -/
theorem not_getNextRetran_unsacked :
    ¬∀ os t as, machine.RunsWith Sends (init blank) os → machine.run (init blank) os = some (t, as) →
      ∀ numdupacks, t.board.getNextRetran numdupacks ≠ -1 →
        t.lastAck < t.board.getNextRetran numdupacks ∧
          t.board.getNextRetran numdupacks ∉ t.covered := by
  intro h
  have hret : (machine.run (init blank)
      [.update 0 [(2, 3)] 0, .update 1 [] 0, .timeout 3 3]).map (fun r =>
        (r.1.board.getNextRetran 3, decide (r.1.board.getNextRetran 3 ∈ r.1.covered))) =
      some (2, true) := by decide +kernel
  obtain ⟨⟨t, as⟩, hrun, hret⟩ := Option.map_eq_some_iff.1 hret
  obtain ⟨htwo, hin⟩ := Prod.mk.inj hret
  refine (h _ t as (by decide +kernel) hrun 3 ?_).2 (of_decide_eq_true hin)
  rw [htwo]
  decide

-- The acknowledgement overruns the board: it goes on with packet 3, which is acknowledged.
example : (machine.run (init blank) [.update 0 [(2, 3)] 0, .update 4 [(6, 7)] 0, .timeout 7 3]).map
    (fun r => (r.1.board.getNextRetran 3, r.1.lastAck, r.1.overran)) = some (3, 4, true) := by
  decide +kernel

end RHSender

end Ns2
