import Ns2.Tcp.SackSet

/-! The ring refines the sets: a node in use says what the sets say of its packet, and each
loop of `UpdateScoreBoard` moves one of the sets. -/

namespace Ns2

open Option Function

namespace ScoreBoard

open Finset

variable {i j d : ℤ} {n : ℕ} {blocks : List (ℤ × ℤ)}

/-- What the node of a packet says. -/
structure IsNode (covered retransmitted : Finset ℤ) (i : ℤ) (x : ScoreBoardNode) : Prop where
  seqNo : x.seqNo = i
  ackFlag : x.ackFlag = false
  sackFlag : x.sackFlag = true ↔ i ∈ covered
  retran : x.retran = true ↔ i ∈ retransmitted

/-- The nodes of the board are in use, and they fit. -/
structure Rep (s : ScoreBoard) (S : SackSet) : Prop where
  low : -1 ≤ S.lastAck
  size : 2 ≤ s.sbsize
  edge : S.lastAck < S.edge
  length : s.length = S.edge - (S.lastAck + 1)
  small : s.length < s.sbsize
  first : s.length ≠ 0 → s.first = S.lastAck + 1
  nodes : ∀ i, S.lastAck < i → i < S.edge → IsNode S.covered S.retransmitted i (s.node i)
  covered : ∀ i ∈ S.covered, i < S.edge
  retransmitted : S.retransmitted ⊆ S.board

variable (fresh : ℤ → ScoreBoardNode) {s : ScoreBoard} {S : SackSet} {lastAck : ℤ}

@[simp] theorem write_length (s : ScoreBoard) (i : ℤ) (x : ScoreBoardNode) :
    (s.write i x).length = s.length := rfl

@[simp] theorem write_sbsize (s : ScoreBoard) (i : ℤ) (x : ScoreBoardNode) :
    (s.write i x).sbsize = s.sbsize := rfl

theorem node_write_self (s : ScoreBoard) (i : ℤ) (x : ScoreBoardNode) :
    (s.write i x).node i = x := update_self _ _ _

theorem node_write_of_ne (hne : j ≠ i) (h : |j - i| < s.sbsize) (x : ScoreBoardNode) :
    (s.write i x).node j = s.node j := by
  exact update_of_ne (emod_ne_emod hne h) _ _

section

variable (h : s.Rep S)
include h

theorem Rep.write (hi : S.lastAck < i) (hi' : i ≤ S.edge) (hj : S.lastAck < j)
    (hj' : j ≤ S.edge) (hne : j ≠ i) (x : ScoreBoardNode) : (s.write i x).node j = s.node j := by
  apply node_write_of_ne hne
  have := h.length
  have := h.small
  rw [abs_lt]
  omega

theorem Rep.node_first (hne : s.length ≠ 0) : (s.node s.first).seqNo = S.lastAck + 1 := by
  have := h.edge
  have := h.length
  rw [h.first hne]
  exact (h.nodes _ (by omega) (by omega)).seqNo

theorem Rep.lastSeqNo (hne : s.length ≠ 0) : s.lastSeqNo = S.edge - 1 := by
  have := h.edge
  have hlen := h.length
  have hindex : (s.first + s.length + s.sbsize - 1) % s.sbsize = (S.edge - 1) % s.sbsize := by
    rw [h.first hne, hlen, show S.lastAck + 1 + (S.edge - (S.lastAck + 1)) + s.sbsize - 1 =
      S.edge - 1 + s.sbsize by omega, Int.add_emod_right]
  rw [ScoreBoard.lastSeqNo, hindex]
  exact (h.nodes (S.edge - 1) (by omega) (by omega)).seqNo

theorem Rep.resizeSB (hne : s.length ≠ 0) : (s.resizeSB fresh (s.sbsize * 2)).Rep S := by
  have hedge := h.edge
  have hlen := h.length
  have hsmall := h.small
  have hsize := h.size
  have hnode : ∀ i, S.lastAck < i → i < S.edge →
      (s.resizeSB fresh (s.sbsize * 2)).node i = s.node i := by
    intro i h₁ h₂
    have hinj : Set.InjOn (fun i : ℤ => i % (s.sbsize * 2)) (Set.Icc (S.lastAck + 1) S.edge) :=
      (emod_injOn (S.lastAck + 1) (s.sbsize * 2)).mono (Set.Icc_subset_Ico_right (by omega))
    have hold : Slots.Holds (fun i => i % s.sbsize) (Set.Icc (S.lastAck + 1) S.edge) s.sbn
      (fun i => s.node i) := fun i _ => rfl
    refine hold.copy (fun j => ?_) hinj fresh i ⟨by omega, h₂.le⟩
    rw [h.node_first hne]
    simp only [List.mem_map, List.mem_range, Set.mem_Icc]
    constructor
    · rintro ⟨k, hk, rfl⟩
      omega
    · rintro ⟨h₃, h₄⟩
      exact ⟨(j - (S.lastAck + 1)).toNat, by omega, by omega⟩
  refine ⟨h.low, ?_, hedge, hlen, ?_, h.first, fun i h₁ h₂ => ?_, h.covered, h.retransmitted⟩
  · change 2 ≤ s.sbsize * 2
    omega
  · change s.length < s.sbsize * 2
    omega
  · rw [hnode i h₁ h₂]
    exact h.nodes i h₁ h₂

theorem Rep.growSB (hne : s.length ≠ 0) (needed : ℤ) {fuel : ℕ} (hfuel : 0 < fuel)
    (hneeded : needed + 3 ≤ s.sbsize + fuel) :
    ∃ s', ScoreBoard.growSB fresh needed fuel s = some s' ∧ s'.Rep S ∧ needed < s'.sbsize - 1 ∧
      s'.length = s.length := by
  induction fuel generalizing s with
  | zero => omega
  | succ fuel ih =>
    rw [ScoreBoard.growSB]
    by_cases hbig : needed ≥ s.sbsize - 1
    · rw [if_pos hbig]
      have hsize := h.size
      have hgrown : needed + 3 ≤ (s.resizeSB fresh (s.sbsize * 2)).sbsize + fuel := by
        change needed + 3 ≤ s.sbsize * 2 + fuel
        omega
      obtain ⟨s', heq, hs', hroom, hlen⟩ := ih (h.resizeSB fresh hne) hne (by omega) hgrown
      exact ⟨s', heq, hs', hroom, hlen⟩
    · rw [if_neg hbig]
      exact ⟨s, rfl, h, by omega, rfl⟩

theorem Rep.extendOne (hroom : s.length + 1 < s.sbsize) (hfirst : s.first = S.lastAck + 1) (d : ℤ) :
    ({ s.write S.edge (ScoreBoardNode.new S.edge) with
      length := s.length + 1
      changed := d } : ScoreBoard).Rep { S with edge := S.edge + 1 } := by
  have hedge := h.edge
  have hlen := h.length
  refine ⟨h.low, h.size, ?_, ?_, hroom, fun _ => hfirst, fun i h₁ h₂ => ?_, fun i hi => ?_,
    fun i hi => ?_⟩
  · dsimp only
    omega
  · dsimp only
    omega
  · dsimp only at h₁ h₂
    by_cases hi : i = S.edge
    · subst hi
      have hnode : IsNode S.covered S.retransmitted S.edge (ScoreBoardNode.new S.edge) := by
        refine ⟨rfl, rfl, ?_, ?_⟩
        · have hout : S.edge ∉ S.covered := fun hin => lt_irrefl _ (h.covered _ hin)
          simp [ScoreBoardNode.new, hout]
        · have hout : S.edge ∉ S.retransmitted := fun hin =>
            lt_irrefl _ (SackSet.mem_board.1 (h.retransmitted hin)).2
          simp [ScoreBoardNode.new, hout]
      rw [← node_write_self s S.edge (ScoreBoardNode.new S.edge)] at hnode
      exact hnode
    · have hold := h.nodes i h₁ (by omega)
      rw [← h.write hedge le_rfl h₁ (by omega) hi (ScoreBoardNode.new S.edge)] at hold
      exact hold
  · have := h.covered i hi
    dsimp only
    omega
  · obtain ⟨h₁, h₂⟩ := SackSet.mem_board.1 (h.retransmitted hi)
    exact SackSet.mem_board.2 ⟨h₁, by dsimp only; omega⟩

theorem Rep.extend (hne : s.length ≠ 0) (hroom : s.length + n < s.sbsize) :
    ∃ s', ScoreBoard.extend n S.edge s = some s' ∧ s'.Rep { S with edge := S.edge + n } ∧
      s'.length ≠ 0 := by
  induction n generalizing s S with
  | zero => exact ⟨s, rfl, by simpa using h, hne⟩
  | succ n ih =>
    have hedge := h.edge
    have hlen := h.length
    push_cast at hroom
    rw [ScoreBoard.extend]
    dsimp only
    rw [write_sbsize, if_neg (by omega)]
    obtain ⟨s', heq, hs', hne'⟩ := ih (h.extendOne (by omega) (h.first hne) (s.changed + 1))
      (by dsimp only; omega) (by dsimp only; rw [write_sbsize]; omega)
    refine ⟨s', heq, ?_, hne'⟩
    have hend : S.edge + 1 + (n : ℤ) = S.edge + (n + 1 : ℕ) := by
      push_cast
      omega
    rw [← hend]
    exact hs'

theorem Rep.coverOne (h₁ : S.lastAck < i) (h₂ : i < S.edge) (d : ℤ) : ({ s.write i { s.node i with
        sackFlag := true
        retran := false } with changed := d } : ScoreBoard).Rep (S.coverSet {i}) := by
  have hedge := h.edge
  refine ⟨h.low, h.size, hedge, h.length, h.small, h.first, fun j h₃ h₄ => ?_, fun j hj => ?_,
    fun j hj => h.retransmitted (mem_sdiff.1 hj).1⟩
  · have hold := h.nodes j h₃ h₄
    by_cases hj : j = i
    · subst hj
      have hnode : IsNode (S.coverSet {j}).covered (S.coverSet {j}).retransmitted j
          { s.node j with
            sackFlag := true
            retran := false } :=
        ⟨hold.seqNo, hold.ackFlag, by simp [SackSet.coverSet], by simp [SackSet.coverSet]⟩
      rw [← node_write_self s j { s.node j with
        sackFlag := true
        retran := false }] at hnode
      exact hnode
    · have hnode : IsNode (S.coverSet {i}).covered (S.coverSet {i}).retransmitted j (s.node j) :=
        ⟨hold.seqNo, hold.ackFlag, by simp [SackSet.coverSet, hj, hold.sackFlag],
          by simp [SackSet.coverSet, hj, hold.retran]⟩
      rw [← h.write h₁ h₂.le h₃ h₄.le hj { s.node i with
        sackFlag := true
        retran := false }] at hnode
      exact hnode
  · rcases mem_union.1 hj with hj | hj
    · exact h.covered j hj
    · rw [mem_singleton.1 hj]
      exact h₂

end

theorem coverSet_coverSet (T T' : Finset ℤ) (S : SackSet) :
    (S.coverSet T).coverSet T' = S.coverSet (T ∪ T') := by
  simp [SackSet.coverSet, union_assoc, sdiff_sdiff_left]

theorem coverSet_empty (S : SackSet) : S.coverSet ∅ = S := by
  simp [SackSet.coverSet]

theorem Rep.cover (h : s.Rep S) {l r : ℤ} (h₁ : S.lastAck < i) (h₂ : i + n ≤ S.edge) :
    ∃ s' d', ScoreBoard.cover l r n i (s, d) = (s', d') ∧
      s'.Rep (S.coverSet (Ico l r ∩ Ico i (i + n))) ∧
      d' + (S.coverSet (Ico l r ∩ Ico i (i + n))).retransmitted.card =
        d + S.retransmitted.card ∧ s'.length = s.length := by
  induction n generalizing s S i d with
  | zero =>
    refine ⟨s, d, rfl, ?_⟩
    simp only [Nat.cast_zero, add_zero, Ico_self, inter_empty, coverSet_empty]
    exact ⟨h, trivial, trivial⟩
  | succ n ih =>
    push_cast at h₂
    have hnode := h.nodes i h₁ (by omega)
    have hsplit : Ico l r ∩ Ico i (i + (n + 1 : ℕ)) =
        (if l ≤ i ∧ i < r then {i} else ∅) ∪
          (Ico l r ∩ Ico (i + 1) (i + 1 + n)) := by
      ext j
      split_ifs with hi
      · simp only [mem_inter, mem_Ico, mem_union, mem_singleton]
        omega
      · simp only [mem_inter, mem_Ico, mem_union, notMem_empty,
          false_or]
        omega
    rw [ScoreBoard.cover, hsplit]
    dsimp only
    by_cases hi : l ≤ i ∧ i < r
    · rw [if_pos (by rw [hnode.seqNo]; exact hi), if_pos hi, ← coverSet_coverSet]
      have hcard : ((S.coverSet {i}).retransmitted.card : ℤ) +
          (if (s.node i).retran = true then d + 1 else d) = d + S.retransmitted.card := by
        simp only [SackSet.coverSet, sdiff_singleton_eq_erase]
        split_ifs with hretran
        · have := card_erase_add_one (hnode.retran.1 hretran)
          omega
        · rw [erase_eq_of_notMem fun hin => hretran (hnode.retran.2 hin)]
          omega
      obtain ⟨s', d', heq, hs', hd', hlen⟩ := ih
        (d := if (s.node i).retran = true then d + 1 else d) (h.coverOne h₁ (by omega)
        (if (s.node i).sackFlag then s.changed else s.changed + 1))
        (show (S.coverSet {i}).lastAck < i + 1 by change S.lastAck < i + 1; omega)
        (show i + 1 + n ≤ S.edge by omega)
      exact ⟨s', d', heq, hs', by omega, hlen⟩
    · rw [if_neg (by rw [hnode.seqNo]; exact hi), if_neg hi, empty_union]
      exact ih h (show S.lastAck < i + 1 by omega) (by omega)

theorem Rep.of_empty (hlow : -1 ≤ lastAck) (hsize : 2 ≤ s.sbsize) (hlen : s.length = 0) :
    s.Rep (SackSet.empty lastAck) := by
  refine ⟨hlow, hsize, ?_, ?_, by omega, fun hne => absurd hlen hne, fun i h₁ h₂ => ?_, ?_, ?_⟩
  · dsimp only [SackSet.empty]
    omega
  · dsimp only [SackSet.empty]
    omega
  · dsimp only [SackSet.empty] at h₁ h₂
    omega
  · simp [SackSet.empty]
  · simp [SackSet.empty]

theorem Rep.ack_self (h : s.Rep S) (hne : s.length ≠ 0) : S.ack S.lastAck = S := by
  have hedge := h.edge
  have hlen := h.length
  have hmarks : S.retransmitted.filter (fun i => S.lastAck < i) = S.retransmitted :=
    filter_true_of_mem fun i hi => (SackSet.mem_board.1 (h.retransmitted hi)).1
  rw [SackSet.ack, if_neg (by omega), hmarks]

/-- The first packet of the board is acknowledged. -/
def ackOne (S : SackSet) : SackSet :=
  { S with
    lastAck := S.lastAck + 1
    retransmitted := S.retransmitted.erase (S.lastAck + 1) }

theorem ack_ackOne (h : S.lastAck < lastAck) : (ackOne S).ack lastAck = S.ack lastAck := by
  have hmarks : (S.retransmitted.erase (S.lastAck + 1)).filter (fun i => lastAck < i) =
      S.retransmitted.filter fun i => lastAck < i := by
    ext i
    simp only [mem_filter, mem_erase]
    constructor
    · rintro ⟨⟨-, hi⟩, hlt⟩
      exact ⟨hi, hlt⟩
    · rintro ⟨hi, hlt⟩
      exact ⟨⟨by omega, hi⟩, hlt⟩
  simp only [SackSet.ack, ackOne, hmarks]

section

variable (h : s.Rep S) (hne : s.length ≠ 0)
include h hne

theorem Rep.advanceOne (hmore : s.length - 1 ≠ 0) (d : ℤ) (x : ScoreBoardNode) : (({ s with
      first := s.first + 1
      length := s.length - 1
      changed := d } : ScoreBoard).write (S.lastAck + 1) x).Rep (ackOne S) := by
  have hlow := h.low
  have hedge := h.edge
  have hlen := h.length
  have hsmall := h.small
  refine ⟨?_, h.size, ?_, ?_, ?_, fun _ => ?_, fun i h₁ h₂ => ?_, h.covered, fun i hi => ?_⟩
  · change -1 ≤ S.lastAck + 1
    omega
  · change S.lastAck + 1 < S.edge
    omega
  · change s.length - 1 = S.edge - (S.lastAck + 1 + 1)
    omega
  · change s.length - 1 < s.sbsize
    omega
  · change s.first + 1 = S.lastAck + 1 + 1
    rw [h.first hne]
  · change S.lastAck + 1 < i at h₁
    change i < S.edge at h₂
    have hnode : IsNode (ackOne S).covered (ackOne S).retransmitted i (s.node i) := by
      have hold := h.nodes i (by omega) h₂
      refine ⟨hold.seqNo, hold.ackFlag, hold.sackFlag, ?_⟩
      have hne : i ≠ S.lastAck + 1 := by omega
      simp [ackOne, hne, hold.retran]
    rw [← h.write (i := S.lastAck + 1) (by omega) (by omega) (by omega) h₂.le (by omega) x]
      at hnode
    exact hnode
  · obtain ⟨hne, hi⟩ := mem_erase.1 hi
    obtain ⟨h₁, h₂⟩ := SackSet.mem_board.1 (h.retransmitted hi)
    refine SackSet.mem_board.2 ⟨?_, h₂⟩
    change S.lastAck + 1 < i
    omega

theorem Rep.advance (hn : lastAck = S.lastAck + n) :
    ∃ s' d', ScoreBoard.advance lastAck n (S.lastAck + 1) (s, d) = some (s', d') ∧
      s'.Rep (S.ack lastAck) ∧
      d' + (S.ack lastAck).retransmitted.card = d + S.retransmitted.card := by
  induction n generalizing s S d with
  | zero =>
    obtain rfl : lastAck = S.lastAck := by simpa using hn
    rw [h.ack_self hne]
    exact ⟨s, d, rfl, h, rfl⟩
  | succ n ih =>
    push_cast at hn
    have hlow := h.low
    have hedge := h.edge
    have hlen := h.length
    have hnode := h.nodes (S.lastAck + 1) (by omega) (by omega)
    rw [ScoreBoard.advance]
    dsimp only
    rw [if_pos (by rw [hnode.seqNo]; omega), if_neg (by rw [h.first hne]; omega), write_length]
    dsimp only
    have hcard : ((ackOne S).retransmitted.card : ℤ) +
        (if (s.node (S.lastAck + 1)).retran = true then d + 1 else d) =
          d + S.retransmitted.card := by
      simp only [ackOne]
      split_ifs with hretran
      · have := card_erase_add_one (hnode.retran.1 hretran)
        omega
      · rw [erase_eq_of_notMem fun hin => hretran (hnode.retran.2 hin)]
        omega
    by_cases hlast : s.length - 1 = 0
    · rw [if_pos hlast]
      have hempty : S.ack lastAck = SackSet.empty lastAck := by
        rw [SackSet.ack, if_pos (by omega)]
      rw [hempty]
      refine ⟨_, _, rfl, Rep.of_empty (by omega) h.size hlast, ?_⟩
      have hzero : (ackOne S).retransmitted = ∅ := by
        rw [eq_empty_iff_forall_notMem]
        intro i hi
        obtain ⟨hne, hi⟩ := mem_erase.1 hi
        have := SackSet.mem_board.1 (h.retransmitted hi)
        omega
      rw [hzero] at hcard
      simpa [SackSet.empty] using hcard
    · rw [if_neg hlast]
      obtain ⟨s', d', heq, hs', hd'⟩ := ih
        (d := if (s.node (S.lastAck + 1)).retran = true then d + 1 else d)
        (h.advanceOne hne hlast (s.changed + 1) { s.node (S.lastAck + 1) with
          ackFlag := true
          sackFlag := true
          retran := false
          sndNxt := if (s.node (S.lastAck + 1)).retran then 0 else
            (s.node (S.lastAck + 1)).sndNxt })
        hlast (show lastAck = S.lastAck + 1 + n by omega)
      rw [ack_ackOne (by omega)] at hs' hd'
      exact ⟨s', d', heq, hs', by omega⟩

theorem Rep.updateBlock {b : ℤ × ℤ} (hl : S.lastAck + 1 < b.1) (hr : b.1 ≤ b.2) (d : ℤ) :
    ∃ s' d', ScoreBoard.updateBlock fresh S.lastAck (s, d) b = some (s', d') ∧
      s'.Rep (S.cover b) ∧ s'.length ≠ 0 ∧
      d' + (S.cover b).retransmitted.card = d + S.retransmitted.card := by
  have hedge := h.edge
  have hlen := h.length
  -- the nodes up to the right end of the block
  have hwide : ∃ s₁, (if b.2 > s.lastSeqNo then
      (ScoreBoard.growSB fresh (b.2 - S.lastAck) (b.2 - S.lastAck + 3).toNat s).bind fun s =>
        ScoreBoard.extend (b.2 - (s.lastSeqNo + 1)).toNat (s.lastSeqNo + 1) s
      else some s) = some s₁ ∧ s₁.Rep { S with edge := max S.edge b.2 } ∧ s₁.length ≠ 0 := by
    rw [h.lastSeqNo hne]
    by_cases hbig : b.2 > S.edge - 1
    · rw [if_pos hbig]
      have hsize := h.size
      obtain ⟨s₁, hgrow, h₁, hroom, hlen₁⟩ := h.growSB fresh hne
        (b.2 - S.lastAck) (show 0 < (b.2 - S.lastAck + 3).toNat by omega) (by omega)
      rw [hgrow, bind_some, h₁.lastSeqNo (by omega), Int.sub_add_cancel]
      obtain ⟨s₂, hext, h₂, hne₂⟩ := h₁.extend (by omega)
        (show s₁.length + ((b.2 - S.edge).toNat : ℕ) < s₁.sbsize by omega)
      refine ⟨s₂, hext, ?_, hne₂⟩
      rw [show max S.edge b.2 = S.edge + ((b.2 - S.edge).toNat : ℕ) by omega]
      exact h₂
    · rw [if_neg hbig]
      refine ⟨s, rfl, ?_, hne⟩
      rw [show max S.edge b.2 = S.edge by omega]
      exact h
  obtain ⟨s₁, heq₁, h₁, hne₁⟩ := hwide
  have hstart := h₁.node_first hne₁
  dsimp only at hstart
  obtain ⟨s', d', heq, hs', hd', hlen'⟩ := h₁.cover (l := b.1) (r := b.2) (i := S.lastAck + 1)
    (d := d) (n := (b.2 - (S.lastAck + 1)).toNat) (by dsimp only; omega) (by dsimp only; omega)
  have hinter : Ico b.1 b.2 ∩ Ico (S.lastAck + 1)
      (S.lastAck + 1 + ((b.2 - (S.lastAck + 1)).toNat : ℕ)) = Ico b.1 b.2 := by
    apply inter_eq_left.2
    exact Ico_subset_Ico (by omega) (by omega)
  rw [hinter] at hs' hd'
  refine ⟨s', d', ?_, hs', by rw [hlen']; exact hne₁, hd'⟩
  rw [ScoreBoard.updateBlock]
  dsimp only
  rw [heq₁, map_some, hstart, heq]

theorem Rep.updateBlocks (hblocks : ∀ b ∈ blocks, S.lastAck + 1 < b.1 ∧ b.1 ≤ b.2) (d : ℤ) :
    ∃ s' d', blocks.foldlM (ScoreBoard.updateBlock fresh S.lastAck) (s, d) = some (s', d') ∧
      s'.Rep (blocks.foldl SackSet.cover S) ∧
      d' + (blocks.foldl SackSet.cover S).retransmitted.card = d + S.retransmitted.card := by
  induction blocks generalizing s S d with
  | nil => exact ⟨s, d, rfl, h, rfl⟩
  | cons b blocks ih =>
    obtain ⟨hl, hr⟩ := hblocks b List.mem_cons_self
    obtain ⟨s₁, d₁, heq, h₁, hne₁, hd₁⟩ := h.updateBlock fresh hne hl hr d
    obtain ⟨s', d', heq', h', hd'⟩ :=
      ih h₁ hne₁ (fun c hc => hblocks c (List.mem_cons_of_mem b hc)) d₁
    refine ⟨s', d', ?_, h', by rw [List.foldl_cons]; omega⟩
    rw [List.foldlM_cons, heq]
    exact heq'

end

theorem Rep.set_changed (h : s.Rep S) (d : ℤ) : ({ s with changed := d } : ScoreBoard).Rep S :=
  ⟨h.low, h.size, h.edge, h.length, h.small, h.first, h.nodes, h.covered, h.retransmitted⟩

theorem Rep.create (h : s.Rep (SackSet.empty lastAck)) (d : ℤ) :
    ({ s.write (lastAck + 1) (ScoreBoardNode.new (lastAck + 1)) with
      first := lastAck + 1
      length := s.length + 1
      changed := d } : ScoreBoard).Rep { SackSet.empty lastAck with edge := lastAck + 1 + 1 } := by
  have hlen : s.length = lastAck + 1 - (lastAck + 1) := h.length
  have hsize := h.size
  have hmoved : ({ s with first := lastAck + 1 } : ScoreBoard).Rep (SackSet.empty lastAck) :=
    Rep.of_empty h.low h.size (by dsimp only; omega)
  exact hmoved.extendOne (show s.length + 1 < s.sbsize by omega) rfl d

theorem Rep.updateScoreBoard (h : s.Rep S) (hack : S.lastAck ≤ lastAck)
    (hblocks : ∀ b ∈ blocks, lastAck + 1 < b.1 ∧ b.1 ≤ b.2) :
    ∃ s', s.updateScoreBoard fresh lastAck blocks = some (s', (S.update lastAck blocks).2) ∧
      s'.Rep (S.update lastAck blocks).1 := by
  have hlow := h.low
  have h₀ := h.set_changed 0
  -- what is acknowledged leaves
  have hacked : ∃ s₁ d₁, (if s.length ≠ 0 ∧ (s.node s.first).seqNo ≤ lastAck then
      ScoreBoard.advance lastAck (lastAck + 1 - (s.node s.first).seqNo).toNat
        (s.node s.first).seqNo (({ s with changed := 0 } : ScoreBoard), 0)
      else some (({ s with changed := 0 } : ScoreBoard), 0)) = some (s₁, d₁) ∧
      s₁.Rep (S.ack lastAck) ∧
      d₁ + (S.ack lastAck).retransmitted.card = (S.retransmitted.card : ℤ) := by
    by_cases hne : s.length = 0
    · have hlen := h.length
      have hempty : S.ack lastAck = SackSet.empty lastAck := by
        rw [SackSet.ack, if_pos (by omega)]
      have hzero : S.retransmitted = ∅ := by
        rw [eq_empty_iff_forall_notMem]
        intro i hi
        have := SackSet.mem_board.1 (h.retransmitted hi)
        omega
      rw [if_neg fun hc => hc.1 hne, hempty, hzero]
      exact ⟨_, _, rfl, Rep.of_empty (hlow.trans hack) h.size hne, rfl⟩
    · rw [h.node_first hne]
      by_cases hold : S.lastAck + 1 ≤ lastAck
      · rw [if_pos ⟨hne, hold⟩]
        obtain ⟨s₁, d₁, heq, h₁, hd₁⟩ := h₀.advance hne (d := 0)
          (show lastAck = S.lastAck + ((lastAck + 1 - (S.lastAck + 1)).toNat : ℕ) by omega)
        exact ⟨s₁, d₁, heq, h₁, by omega⟩
      · rw [if_neg fun hc => hold hc.2, show lastAck = S.lastAck by omega, h.ack_self hne]
        exact ⟨_, _, rfl, h₀, by omega⟩
  obtain ⟨s₁, d₁, heq₁, h₁, hd₁⟩ := hacked
  have hlast : (S.ack lastAck).lastAck = lastAck := by
    rw [SackSet.ack]
    split_ifs <;> rfl
  have hdone : ∀ d', d' + ((S.update lastAck blocks).1.retransmitted.card : ℤ) =
      d₁ + (S.ack lastAck).retransmitted.card → d' = (S.update lastAck blocks).2 := by
    intro d' hd'
    simp only [SackSet.update] at hd' ⊢
    omega
  rw [ScoreBoard.updateScoreBoard]
  dsimp only
  have hstart : ({ s with changed := 0 } : ScoreBoard).node s.first = s.node s.first := rfl
  rw [hstart, heq₁, bind_some]
  dsimp only
  cases blocks with
  | nil =>
    rw [if_neg fun hc => hc.2 rfl, bind_some]
    refine ⟨s₁, ?_, h₁⟩
    rw [← hdone d₁ rfl]
    rfl
  | cons b blocks =>
    obtain ⟨hl, hr⟩ := hblocks b List.mem_cons_self
    by_cases hempty : s₁.length = 0
    · have hsize := h₁.size
      have hS : S.ack lastAck = SackSet.empty lastAck := by
        have hlen := h₁.length
        rw [hempty, hlast] at hlen
        rw [SackSet.ack] at hlen ⊢
        split_ifs at hlen ⊢ with hedge
        · rfl
        · dsimp only at hlen
          omega
      rw [if_pos ⟨hempty, List.cons_ne_nil _ _⟩, write_sbsize, if_neg (by omega), bind_some]
      rw [hS] at h₁
      have hcover : SackSet.cover { SackSet.empty lastAck with edge := lastAck + 1 + 1 } b =
          (SackSet.empty lastAck).cover b := by
        simp only [SackSet.cover, SackSet.empty]
        rw [show max (lastAck + 1 + 1) b.2 = max (lastAck + 1) b.2 by omega]
      obtain ⟨s', d', heq, h', hd'⟩ := (h₁.create (s₁.changed + 1)).updateBlocks fresh
        (show s₁.length + 1 ≠ 0 by omega) hblocks d₁
      rw [List.foldl_cons, hcover, ← List.foldl_cons, ← hS] at h' hd'
      exact ⟨s', by rw [← hdone d' hd']; exact heq, h'⟩
    · rw [if_neg fun hc => hempty hc.1, bind_some]
      obtain ⟨s', d', heq, h', hd'⟩ := h₁.updateBlocks fresh hempty
        (by rw [hlast]; exact hblocks) d₁
      rw [hlast] at heq
      rw [heq, hdone d' hd']
      exact ⟨s', rfl, h'⟩

theorem firstWhere_eq_least {p : ℤ → Bool} {C : Finset ℤ}
    (hC : ∀ j, j ∈ C ↔ i ≤ j ∧ j < i + n ∧ p j = true) : firstWhere p n i = least C := by
  induction n generalizing i with
  | zero =>
    rw [firstWhere, SackSet.least_of_empty]
    intro j hj
    have := (hC j).1 hj
    push_cast at this
    omega
  | succ n ih =>
    push_cast at hC
    rw [firstWhere]
    by_cases hp : p i = true
    · rw [if_pos hp, SackSet.least_of_isLeast]
      exact ⟨(hC i).2 ⟨le_rfl, by omega, hp⟩, fun j hj => ((hC j).1 hj).1⟩
    · rw [if_neg hp]
      apply ih
      intro j
      rw [hC j]
      constructor
      · rintro ⟨h₁, h₂, h₃⟩
        have hne : j ≠ i := by
          rintro rfl
          exact hp h₃
        exact ⟨by omega, by omega, h₃⟩
      · rintro ⟨h₁, h₂, h₃⟩
        exact ⟨by omega, by omega, h₃⟩

theorem Rep.isNew (h : s.Rep S) (h₁ : S.lastAck < i) (h₂ : i < S.edge) :
    (!(s.node i).ackFlag && !(s.node i).sackFlag) = true ↔ i ∉ S.covered := by
  have hnode := h.nodes i h₁ h₂
  rw [hnode.ackFlag, ← hnode.sackFlag]
  simp

theorem Rep.getNextRetran (h : s.Rep S) : s.getNextRetran = S.getNextRetran := by
  have hedge := h.edge
  have hlen := h.length
  rw [ScoreBoard.getNextRetran, SackSet.getNextRetran]
  by_cases hne : s.length = 0
  · rw [if_neg (not_not.2 hne), SackSet.least_of_empty]
    intro i hi
    have := SackSet.mem_board.1 (mem_sdiff.1 (mem_sdiff.1 hi).1).1
    omega
  · rw [if_pos hne, h.node_first hne]
    apply firstWhere_eq_least
    intro i
    rw [mem_sdiff, mem_sdiff, SackSet.mem_board]
    constructor
    · rintro ⟨⟨⟨h₁, h₂⟩, h₃⟩, h₄⟩
      refine ⟨by omega, by omega, ?_⟩
      rw [Bool.and_eq_true, h.isNew h₁ h₂]
      have hnode := h.nodes i h₁ h₂
      exact ⟨h₃, by simpa [← hnode.retran] using h₄⟩
    · rintro ⟨h₁, h₂, h₃⟩
      have hin : S.lastAck < i ∧ i < S.edge := by omega
      rw [Bool.and_eq_true, h.isNew hin.1 hin.2] at h₃
      have hnode := h.nodes i hin.1 hin.2
      exact ⟨⟨hin, h₃.1⟩, by simpa [← hnode.retran] using h₃.2⟩

theorem Rep.getNextUnacked (h : s.Rep S) (seqno : ℤ) :
    s.getNextUnacked seqno = S.getNextUnacked seqno := by
  have hedge := h.edge
  have hlen := h.length
  have hout : S.edge ≤ seqno ∨ s.length = 0 → least (S.unackedFrom seqno) = -1 := by
    intro hsmall
    apply SackSet.least_of_empty
    intro i hi
    obtain ⟨hi, hle⟩ := mem_filter.1 hi
    have := SackSet.mem_board.1 (mem_sdiff.1 hi).1
    omega
  rw [ScoreBoard.getNextUnacked, SackSet.getNextUnacked]
  by_cases hne : s.length = 0
  · rw [if_pos hne, hout (Or.inr hne), ite_self]
  · rw [if_neg hne, h.node_first hne]
    by_cases hlow : seqno ≤ S.lastAck
    · rw [if_pos hlow, if_pos (Or.inl (by omega))]
    · rw [if_neg hlow]
      by_cases hhigh : S.edge ≤ seqno
      · rw [if_pos (Or.inr (by omega)), hout (Or.inl hhigh)]
      · rw [if_neg (by omega)]
        apply firstWhere_eq_least
        intro i
        rw [SackSet.unackedFrom, mem_filter, mem_sdiff, SackSet.mem_board]
        constructor
        · rintro ⟨⟨⟨h₁, h₂⟩, h₃⟩, h₄⟩
          exact ⟨h₄, by omega, (h.isNew h₁ h₂).2 h₃⟩
        · rintro ⟨h₁, h₂, h₃⟩
          have hin : S.lastAck < i ∧ i < S.edge := by omega
          exact ⟨⟨hin, (h.isNew hin.1 hin.2).1 h₃⟩, h₁⟩

/-- A packet is marked whose slot is not that of another packet on the board. -/
def OwnSlot (s : ScoreBoard) : ScoreBoardOp → Prop
  | .markRetran retranSeqno => 0 ≤ retranSeqno ∧ ∀ i, s.first ≤ i → i < s.first + s.length →
      i % s.sbsize = retranSeqno % s.sbsize → i = retranSeqno
  | _ => True

theorem Rep.markRetran (h : s.Rep S) {v : ℤ} (hv : OwnSlot s (.markRetran v)) :
    (s.markRetran v).Rep (S.markRetran v) := by
  have hedge := h.edge
  have hlen := h.length
  have hother : ∀ i, S.lastAck < i → i < S.edge → i ≠ v →
      (s.markRetran v).node i = s.node i := by
    intro i h₁ h₂ hne
    apply update_of_ne
    intro heq
    have hfirst := h.first (by omega)
    exact hne (hv.2 i (by omega) (by omega) heq)
  rw [SackSet.markRetran]
  split_ifs with hin
  · obtain ⟨h₁, h₂⟩ := SackSet.mem_board.1 hin
    refine ⟨h.low, h.size, hedge, hlen, h.small, h.first, fun i h₃ h₄ => ?_, h.covered, ?_⟩
    · have hold := h.nodes i h₃ h₄
      by_cases hi : i = v
      · subst hi
        rw [ScoreBoard.markRetran, node_write_self]
        exact ⟨hold.seqNo, hold.ackFlag, hold.sackFlag, by simp⟩
      · rw [hother i h₃ h₄ hi]
        exact ⟨hold.seqNo, hold.ackFlag, hold.sackFlag, by simp [hi, hold.retran]⟩
    · exact insert_subset hin h.retransmitted
  · refine ⟨h.low, h.size, hedge, hlen, h.small, h.first, fun i h₁ h₂ => ?_, h.covered,
      h.retransmitted⟩
    rw [hother i h₁ h₂ fun heq => hin (heq ▸ SackSet.mem_board.2 ⟨h₁, h₂⟩)]
    exact h.nodes i h₁ h₂

theorem simulates : Machine.Simulates (machine fresh) SackSet.machine OwnSlot SackSet.Admits
    Rep := by
  refine ⟨fun {s S o} h hown hok => ?_⟩
  cases o with
  | update lastAck blocks =>
    obtain ⟨s', heq, h'⟩ := h.updateScoreBoard fresh hok.1 hok.2
    exact ⟨s', _, _, heq, rfl, h'⟩
  | markRetran v => exact ⟨_, _, 0, rfl, rfl, h.markRetran hown⟩
  | clear => exact ⟨_, _, 0, rfl, rfl, Rep.of_empty h.low h.size rfl⟩
  | getNextRetran =>
    refine ⟨s, S, S.getNextRetran, ?_, rfl, h⟩
    rw [← h.getNextRetran]
    rfl
  | getNextUnacked seqno =>
    refine ⟨s, S, S.getNextUnacked seqno, ?_, rfl, h⟩
    rw [← h.getNextUnacked]
    rfl

/-- No run exits, all answers are those of the sets, every packet on the board has its node,
and each retransmission is counted at most once. -/
theorem scoreBoard_refines {sz : ℤ} (hsz : 2 ≤ sz) {os : List ScoreBoardOp}
    (hown : (machine fresh).RunsWith OwnSlot (init fresh sz) os)
    (hos : SackSet.machine.RunsWith SackSet.Admits SackSet.init os) :
    ∃ s S as, (machine fresh).run (init fresh sz) os = some (s, as) ∧
      SackSet.machine.run SackSet.init os = some (S, as) ∧
      (∀ i ∈ S.board, IsNode S.covered S.retransmitted i (s.node i)) ∧
      SackSet.decrements os as ≤ os.countP SackSet.isMark := by
  have hstart : (init fresh sz).Rep SackSet.init := Rep.of_empty le_rfl hsz rfl
  obtain ⟨s, S, as, hrun, hrunS, h⟩ := (simulates fresh).run hstart hown hos
  refine ⟨s, S, as, hrun, hrunS, fun i hi => ?_, ?_⟩
  · obtain ⟨h₁, h₂⟩ := SackSet.mem_board.1 hi
    exact h.nodes i h₁ h₂
  · have hle := SackSet.decrements_le hrunS
    have hzero : SackSet.init.retransmitted.card = 0 := rfl
    omega

def blank : ℤ → ScoreBoardNode := fun i => ScoreBoardNode.new i

/-- A block that makes the ring grow, a packet that is sent again, an acknowledgement and two blocks. -/
def growing : List ScoreBoardOp :=
  [.update 0 [(2, 4)], .getNextRetran, .markRetran 1, .update 4 [(6, 9), (12, 14)],
    .getNextUnacked 6, .clear]

theorem scoreBoard_refines_growing : ∃ s S as,
    (machine blank).run (init blank 4) growing = some (s, as) ∧
      SackSet.machine.run SackSet.init growing = some (S, as) ∧
      (∀ i ∈ S.board, IsNode S.covered S.retransmitted i (s.node i)) ∧
      SackSet.decrements growing as ≤ growing.countP SackSet.isMark := by
  have hown : (machine blank).RunsWith OwnSlot (init blank 4) growing := by
    refine (Machine.runsWith_cons_iff (by rfl)).2 ⟨trivial, ?_⟩
    refine (Machine.runsWith_cons_iff (by rfl)).2 ⟨trivial, ?_⟩
    refine ⟨⟨by decide, fun i h₁ h₂ => ?_⟩, fun s _ _ => Machine.runsWith_of_forall _ ?_ s⟩
    · change 1 ≤ i at h₁
      change i < 1 + 3 at h₂
      change i % 8 = 1 % 8 → i = 1
      omega
    · intro o ho s
      simp only [List.mem_cons, List.not_mem_nil, or_false] at ho
      rcases ho with rfl | rfl | rfl <;> trivial
  have hos : SackSet.machine.RunsWith SackSet.Admits SackSet.init growing := by decide +kernel
  exact scoreBoard_refines blank (by decide) hown hos

/-- Only values are marked that `GetNextRetran` has returned. -/
def MarksReturned : List ℤ → List ScoreBoardOp → List ℤ → Prop
  | returned, .getNextRetran :: os, a :: as => MarksReturned (a :: returned) os as
  | returned, .markRetran v :: os, _ :: as => v ∈ returned ∧ MarksReturned returned os as
  | returned, _ :: os, _ :: as => MarksReturned returned os as
  | _, _, _ => True

/-- 0 is acknowledged before it is marked, and 64 has its slot. -/
def markedLate : List ScoreBoardOp :=
  [.update (-1) [(2, 3)], .getNextRetran, .update 5 [(66, 67), (7, 64)], .markRetran 0,
    .getNextRetran, .markRetran 6, .getNextRetran]

/-- `GetNextUnacked` does not look below the board, and a mark that comes late is a mark of
another packet. -/
theorem not_scoreBoard_refines :
    (¬ ∀ os s S as as', SackSet.machine.RunsWith SackSet.Admits SackSet.init os →
      (machine blank).run (init blank 64) os = some (s, as) → MarksReturned [] os as →
      SackSet.machine.run SackSet.init os = some (S, as') →
        ∀ seqno, s.getNextUnacked seqno = least (S.unackedFrom seqno)) ∧
    ¬ ∀ os as as', SackSet.machine.RunsWith SackSet.Admits SackSet.init os →
      (machine blank).answers (init blank 64) os = some as → MarksReturned [] os as →
      SackSet.machine.answers SackSet.init os = some as' → as = as' := by
  constructor
  · intro h
    have hos : SackSet.machine.RunsWith SackSet.Admits SackSet.init [.update 0 [(2, 3)]] := by decide
    have hrun : ((machine blank).run (init blank 64) [.update 0 [(2, 3)]]).map
        (fun r => (r.1.getNextUnacked 0, r.2)) = some (-1, [0]) := by decide +kernel
    obtain ⟨⟨s, as⟩, hr, heq⟩ := map_eq_some_iff.1 hrun
    obtain ⟨hunacked, rfl⟩ := Prod.mk.inj heq
    have hleast := h _ s _ [0] _ hos hr trivial rfl 0
    rw [hunacked] at hleast
    exact absurd hleast (by decide +kernel)
  · intro h
    have hos : SackSet.machine.RunsWith SackSet.Admits SackSet.init markedLate := by decide +kernel
    have hring : (machine blank).answers (init blank 64) markedLate =
        some [0, 0, 0, 0, 6, 0, 65] := by decide +kernel
    have hsets : SackSet.machine.answers SackSet.init markedLate =
        some [0, 0, 0, 0, 6, 0, 64] := by decide +kernel
    have hmarks : MarksReturned [] markedLate [0, 0, 0, 0, 6, 0, 65] := by
      simp [markedLate, MarksReturned]
    exact absurd (h _ _ _ hos hring hmarks hsets) (by decide)

end ScoreBoard

end Ns2
