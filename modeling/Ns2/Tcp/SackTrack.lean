import Ns2.Tcp.SackSet

/-! A scoreboard in three values: the numbers that are covered, a number up to which nothing is
missing, and a high-water mark of the retransmissions. -/

namespace Ns2.SackSet

open Finset

/-- `Q` is what is covered, nothing is missing below `m`, and below `h` all that was missing has been
retransmitted. Acknowledged numbers may still be in `Q`. -/
structure Tracks (S : SackSet) (Q : Finset ℤ) (m h : ℤ) : Prop where
  acked : 0 ≤ S.lastAck
  edge : S.lastAck < S.edge
  below : ∀ x ∈ S.covered, x < S.edge
  top : S.lastAck + 1 < S.edge → S.edge - 1 ∈ S.covered
  low : S.lastAck < m
  same : ∀ x, S.lastAck < x → (x ∈ Q ↔ x ∈ S.covered)
  inSeq : ∀ x, S.lastAck < x → x < m → x ∈ Q
  up : ∀ x ∈ Q, x + 1 < m → x + 1 ∈ Q
  minTop : m ≤ S.edge
  passed : ∀ x, S.lastAck < x → x < h → x ∈ Q ∨ x ∈ S.retransmitted
  marked : ∀ x ∈ S.retransmitted, x < h
  markTop : h ≤ S.edge

variable {S : SackSet} {Q Q' : Finset ℤ} {m m' h : ℤ} {lastAck : ℤ}

theorem ack_of_edge_le (he : S.edge ≤ lastAck + 1) : S.ack lastAck = empty lastAck := by
  rw [ack, if_pos he]

theorem ack_of_lt_edge (he : lastAck + 1 < S.edge) :
    S.ack lastAck = ⟨lastAck, S.edge, S.covered, S.retransmitted.filter fun i => lastAck < i⟩ := by
  rw [ack, if_neg (by omega)]

theorem update_lastAck (S : SackSet) (blocks : List (ℤ × ℤ)) :
    (S.update lastAck blocks).1.lastAck = lastAck := by
  have hcover : ∀ T : SackSet, (blocks.foldl cover T).lastAck = T.lastAck := by
    induction blocks with
    | nil => exact fun T => rfl
    | cons b blocks ih => exact fun T => ih (T.cover b)
  refine (hcover (S.ack lastAck)).trans ?_
  rw [ack]
  split_ifs <;> rfl

theorem Tracks.not_mem (t : S.Tracks Q m h) {x : ℤ} (hx : S.edge ≤ x) : x ∉ Q := by
  have := t.edge
  rw [t.same x (by omega)]
  intro hmem
  have := t.below x hmem
  omega

theorem tracks_empty (hack : 0 ≤ lastAck) (hQ : ∀ x ∈ Q, x ≤ lastAck)
    (hup : ∀ x ∈ Q, x < lastAck → x + 1 ∈ Q) (hh : h ≤ lastAck + 1) :
    (empty lastAck).Tracks Q (lastAck + 1) h where
  acked := hack
  edge := Int.lt_succ lastAck
  below := by simp [empty]
  top := fun hlt => absurd hlt (lt_irrefl _)
  low := Int.lt_succ lastAck
  same := fun x hx => by
    change lastAck < x at hx
    have hnot : x ∉ Q := fun hmem => absurd (hQ x hmem) (not_le.2 hx)
    simp [hnot, empty]
  inSeq := fun x hx hlt => by
    change lastAck < x at hx
    omega
  up := fun x hx hlt => hup x hx (by omega)
  minTop := le_rfl
  passed := fun x hx hlt => by
    change lastAck < x at hx
    omega
  marked := by simp [empty]
  markTop := hh

theorem Tracks.ack_behind (t : S.Tracks Q m h) (hack : S.lastAck ≤ lastAck) (hm : lastAck < m) :
    (S.ack lastAck).Tracks Q m h := by
  have hacked := t.acked
  have htop := t.minTop
  by_cases he : S.edge ≤ lastAck + 1
  · obtain rfl : m = lastAck + 1 := by omega
    rw [ack_of_edge_le he]
    refine tracks_empty (by omega) (fun x hx => ?_) (fun x hx hlt => t.up x hx (by omega))
      (t.markTop.trans he)
    by_contra hlt
    exact t.not_mem (by omega) hx
  · rw [ack_of_lt_edge (by omega)]
    refine ⟨hacked.trans hack, by simp only; omega, t.below, fun _ => t.top (by omega), hm,
      fun x hx => t.same x (by simp only at hx; omega),
      fun x hx => t.inSeq x (by simp only at hx; omega), t.up, htop, fun x hx hlt => ?_,
      fun x hx => t.marked x (mem_filter.1 hx).1, t.markTop⟩
    simp only at hx
    rcases t.passed x (by omega) hlt with hmem | hmem
    · exact Or.inl hmem
    · exact Or.inr (mem_filter.2 ⟨hmem, hx⟩)

theorem Tracks.ack_ahead (t : S.Tracks Q m h) (hack : S.lastAck ≤ lastAck) :
    (S.ack lastAck).Tracks (Q.filter fun x => lastAck + 1 ≤ x) (lastAck + 1) h := by
  have hacked := t.acked
  by_cases he : S.edge ≤ lastAck + 1
  · rw [ack_of_edge_le he]
    have hnone : (Q.filter fun x => lastAck + 1 ≤ x) = ∅ := by
      rw [filter_eq_empty_iff]
      intro x hx hle
      exact t.not_mem (by omega) hx
    rw [hnone]
    exact tracks_empty (by omega) (by simp) (by simp) (t.markTop.trans he)
  · rw [ack_of_lt_edge (by omega)]
    refine ⟨hacked.trans hack, by simp only; omega, t.below, fun _ => t.top (by omega), by simp,
      fun x hx => ?_, fun x hx hlt => ?_, fun x hx hlt => ?_, by simp only; omega,
      fun x hx hlt => ?_, fun x hx => t.marked x (mem_filter.1 hx).1, t.markTop⟩
    · simp only at hx
      rw [mem_filter, ← t.same x (by omega)]
      simp only [and_iff_left_iff_imp]
      omega
    · simp only at hx
      omega
    · have := (mem_filter.1 hx).2
      omega
    · simp only at hx
      rcases t.passed x (by omega) hlt with hmem | hmem
      · exact Or.inl (mem_filter.2 ⟨hmem, hx⟩)
      · exact Or.inr (mem_filter.2 ⟨hmem, hx⟩)

theorem Tracks.cover (t : S.Tracks Q m h) {b : ℤ × ℤ} (hb : S.lastAck + 1 < b.1) (hlt : b.1 < b.2)
    (hm : m' = m ∨ ∃ a, a ≤ m ∧ a < m' ∧ Ico a m' ⊆ Q ∪ Ico b.1 b.2 ∧
      m' ∉ Q ∪ Ico b.1 b.2) :
    (S.cover b).Tracks (Q ∪ Ico b.1 b.2) m' h := by
  have hacked := t.acked
  have hedge := t.edge
  have hlow := t.low
  have hmax := le_max_left S.edge b.2
  have hmax' := le_max_right S.edge b.2
  have hin : ∀ x, S.lastAck < x → x < m' → x ∈ Q ∪ Ico b.1 b.2 := by
    intro x hx hlt'
    rcases hm with rfl | ⟨a, ha, -, hsub, -⟩
    · exact mem_union_left _ (t.inSeq x hx hlt')
    · by_cases hxm : x < m
      · exact mem_union_left _ (t.inSeq x hx hxm)
      · exact hsub (mem_Ico.2 ⟨by omega, hlt'⟩)
  have hlow' : S.lastAck < m' := by
    rcases hm with rfl | ⟨a, ha, ham, hsub, hnot⟩
    · exact hlow
    · by_contra hle
      have hprev := hsub (mem_Ico.2 ⟨by omega, Int.sub_one_lt_of_le le_rfl⟩ : m' - 1 ∈ _)
      rcases mem_union.1 hprev with hmem | hmem
      · have := t.up (m' - 1) hmem (by omega)
        rw [sub_add_cancel] at this
        exact hnot (mem_union_left _ this)
      · have := mem_Ico.1 hmem
        omega
  refine ⟨hacked, ?_, ?_, ?_, hlow', ?_, hin, ?_, ?_, ?_, ?_, ?_⟩
  · change S.lastAck < max S.edge b.2
    omega
  · intro x hx
    change x < max S.edge b.2
    rcases mem_union.1 hx with hx | hx
    · have := t.below x hx
      omega
    · have := (mem_Ico.1 hx).2
      omega
  · intro htop
    change max S.edge b.2 - 1 ∈ S.covered ∪ Ico b.1 b.2
    change S.lastAck + 1 < max S.edge b.2 at htop
    by_cases he : b.2 ≤ S.edge
    · rw [max_eq_left he] at htop ⊢
      exact mem_union_left _ (t.top htop)
    · rw [max_eq_right (by omega)]
      exact mem_union_right _ (mem_Ico.2 ⟨by omega, by omega⟩)
  · intro x hx
    change x ∈ _ ↔ x ∈ S.covered ∪ Ico b.1 b.2
    rw [mem_union, mem_union, t.same x hx]
  · intro x hx hlt'
    by_cases hxa : S.lastAck < x + 1
    · exact hin (x + 1) hxa hlt'
    · rcases mem_union.1 hx with hx | hx
      · exact mem_union_left _ (t.up x hx (by omega))
      · have := (mem_Ico.1 hx).1
        omega
  · change m' ≤ max S.edge b.2
    have htop := t.minTop
    rcases hm with rfl | ⟨a, ha, ham, hsub, hnot⟩
    · omega
    · have hprev := hsub (mem_Ico.2 ⟨by omega, Int.sub_one_lt_of_le le_rfl⟩ : m' - 1 ∈ _)
      by_contra hgt
      rcases mem_union.1 hprev with hmem | hmem
      · exact t.not_mem (by omega) hmem
      · have := mem_Ico.1 hmem
        omega
  · intro x hx hlt'
    change _ ∨ x ∈ S.retransmitted \ Ico b.1 b.2
    by_cases hxb : x ∈ Ico b.1 b.2
    · exact Or.inl (mem_union_right _ hxb)
    · rcases t.passed x hx hlt' with hmem | hmem
      · exact Or.inl (mem_union_left _ hmem)
      · exact Or.inr (mem_sdiff.2 ⟨hmem, hxb⟩)
  · intro x hx
    exact t.marked x (mem_sdiff.1 hx).1
  · have := t.markTop
    change h ≤ max S.edge b.2
    omega

theorem Tracks.clear (t : S.Tracks Q m h) (hm : m ≤ S.lastAck + 1) :
    S.clear.Tracks ∅ m (-1) := by
  have hlow := t.low
  obtain rfl : m = S.lastAck + 1 := by omega
  have hacked := t.acked
  exact tracks_empty hacked (by simp) (by simp) (by omega)

theorem isLeast_least {C : Finset ℤ} (h : least C ≠ -1) : IsLeast (C : Set ℤ) (least C) := by
  by_cases hne : C.Nonempty
  · rw [least, dif_pos hne]
    exact ⟨C.min'_mem hne, fun x hx => C.min'_le x hx⟩
  · exact absurd (least_of_empty fun x hx => hne ⟨x, hx⟩) h

section

variable (t : S.Tracks Q m h)
include t

theorem Tracks.mem_next {x : ℤ} :
    x ∈ (S.board \ S.covered) \ S.retransmitted ↔ m ≤ x ∧ h ≤ x ∧ x < S.edge ∧ x ∉ Q := by
  have hlow := t.low
  rw [mem_sdiff, mem_sdiff, mem_board]
  constructor
  · rintro ⟨⟨⟨hx, hlt⟩, hcov⟩, hretran⟩
    rw [← t.same x hx] at hcov
    refine ⟨?_, ?_, hlt, hcov⟩
    · by_contra hlt'
      exact hcov (t.inSeq x hx (not_le.1 hlt'))
    · by_contra hlt'
      exact (t.passed x hx (not_le.1 hlt')).elim hcov hretran
  · rintro ⟨hm, hh, hlt, hQ⟩
    have hx : S.lastAck < x := by omega
    refine ⟨⟨⟨hx, hlt⟩, ?_⟩, fun hretran => ?_⟩
    · rwa [← t.same x hx]
    · have := t.marked x hretran
      omega

theorem Tracks.getNextRetran_eq {v : ℤ} (hm : m ≤ v) (hh : h ≤ v)
    (hv : v < S.edge) (hQ : v ∉ Q) (hbetween : ∀ x, m ≤ x → h ≤ x → x < v → x ∈ Q) :
    S.getNextRetran = v := by
  apply least_of_isLeast
  refine ⟨mem_coe.2 (t.mem_next.2 ⟨hm, hh, hv, hQ⟩), fun x hx => ?_⟩
  obtain ⟨hxm, hxh, -, hxQ⟩ := t.mem_next.1 (mem_coe.1 hx)
  by_contra hlt
  exact hxQ (hbetween x hxm hxh (not_le.1 hlt))

theorem Tracks.getNextRetran_none
    (hall : ∀ x, m ≤ x → h ≤ x → x < S.edge → x ∈ Q) : S.getNextRetran = -1 := by
  apply least_of_empty
  intro x hx
  obtain ⟨hxm, hxh, hlt, hxQ⟩ := t.mem_next.1 hx
  exact hxQ (hall x hxm hxh hlt)

theorem Tracks.raise {h' : ℤ} (hle : h ≤ h') (htop : h' ≤ S.edge)
    (hQ : ∀ x, S.lastAck < x → h ≤ x → x < h' → x ∈ Q) : S.Tracks Q m h' :=
  { t with
    passed := fun x hx hlt => by
      by_cases hxh : x < h
      · exact t.passed x hx hxh
      · exact Or.inl (hQ x hx (not_lt.1 hxh) hlt)
    marked := fun x hx => (t.marked x hx).trans_le hle
    markTop := htop }

theorem Tracks.markRetran (hv : S.getNextRetran ≠ -1) :
    h ≤ S.getNextRetran ∧
      (S.markRetran S.getNextRetran).Tracks Q m (S.getNextRetran + 1) := by
  have hleast := isLeast_least hv
  change IsLeast _ S.getNextRetran at hleast
  generalize S.getNextRetran = v at hleast
  obtain ⟨hm, hh, hlt, hQ⟩ := t.mem_next.1 (mem_coe.1 hleast.1)
  have hlow := t.low
  have hboard : v ∈ S.board := mem_board.2 ⟨by omega, hlt⟩
  refine ⟨hh, ?_⟩
  rw [SackSet.markRetran, if_pos hboard]
  refine { t with passed := fun x hx hxv => ?_, marked := fun x hx => ?_, markTop := hlt }
  · change x ∈ Q ∨ x ∈ insert v S.retransmitted
    by_cases heq : x = v
    · exact Or.inr (mem_insert.2 (Or.inl heq))
    · by_cases hask : x ∈ (S.board \ S.covered) \ S.retransmitted
      · have := hleast.2 (mem_coe.2 hask)
        omega
      · rw [mem_insert]
        have hxm : ¬(m ≤ x ∧ h ≤ x ∧ x < S.edge ∧ x ∉ Q) := fun hand => hask (t.mem_next.2 hand)
        by_cases hxQ : x ∈ Q
        · exact Or.inl hxQ
        · by_cases hmx : x < m
          · exact Or.inl (t.inSeq x hx hmx)
          · have hxh : x < h := by
              by_contra hge
              exact hxm ⟨by omega, by omega, by omega, hxQ⟩
            exact (t.passed x hx hxh).imp_right Or.inr
  · rcases mem_insert.1 hx with rfl | hx
    · omega
    · have := t.marked x hx
      omega

end

end Ns2.SackSet
