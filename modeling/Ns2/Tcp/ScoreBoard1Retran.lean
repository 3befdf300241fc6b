import Ns2.Tcp.ScoreBoard1Run

/-! When `GetNextRetran` knows the lowest LOST node after `UpdateScoreBoard`: the pointer is rebuilt
only as far as the traversal goes. -/

namespace Ns2

open List

namespace ScoreBoardNode1

variable {n now part : ScoreBoardNode1} {l cut : List ScoreBoardNode1} {a c x : ℤ}

/-- `x` is in the node. -/
def On (n : ScoreBoardNode1) (x : ℤ) : Prop := n.seq ≤ x ∧ x ≤ n.getEnd

theorem exists_on (h : Linked a l c) (hlow : a ≤ x) (hhigh : x < c) : ∃ n ∈ l, On n x := by
  induction l generalizing a with
  | nil =>
    obtain rfl : a = c := h
    omega
  | cons n l ih =>
    obtain ⟨hseq, hle, hrest⟩ := h
    by_cases hx : x ≤ n.getEnd
    · exact ⟨n, mem_cons_self, by omega, hx⟩
    · obtain ⟨m, hm, hon⟩ := ih hrest (by omega)
      exact ⟨m, mem_cons_of_mem n hm, hon⟩

theorem Cut.on_cut (h : Cut now part cut) (hm : n ∈ cut) (hx : On n x) :
    On now x ∧ part.getEnd < x ∧ n.flag = now.flag ∧ now.flag ≠ .retransmitted := by
  have hbounds := h.linked.bounds hm
  have := h.seq
  have := h.nonempty
  obtain ⟨hlow, hhigh⟩ := hx
  refine ⟨⟨by omega, by omega⟩, by omega, h.flags n hm, fun hretran => ?_⟩
  rw [(h.whole hretran).2] at hm
  cases hm

theorem Cut.exists_cut (h : Cut now part cut) (hlow : part.getEnd < x) (hhigh : x ≤ now.getEnd) :
    ∃ n ∈ cut, On n x ∧ n.flag = now.flag := by
  obtain ⟨n, hn, hon⟩ := exists_on h.linked (by omega) (show x < now.getEnd + 1 by omega)
  exact ⟨n, hn, hon, h.flags n hn⟩

end ScoreBoardNode1

namespace ScoreBoard1

open ScoreBoardNode1

variable {s : ScoreBoard1} {k k' k₁ : Pass} {n now part new : ScoreBoardNode1}
  {rest cut l : List ScoreBoardNode1} {a c q p x ack lastAck dupackThreshold : ℤ}
  {sacks blocks : List (ℤ × ℤ)}
variable {b : ℤ × ℤ} {thorough : Bool} {s₁ : ScoreBoard1}

theorem sorted_insertSack (h : sacks.Pairwise fun c d => c.1 ≤ d.1) :
    (insertSack b sacks).Pairwise fun c d => c.1 ≤ d.1 := by
  have hsplit := rdropWhile_append_rtakeWhile (p := fun c : ℤ × ℤ => decide (c.1 > b.1))
    (l := sacks)
  have habove : ∀ d ∈ sacks.rtakeWhile fun c => decide (c.1 > b.1), b.1 ≤ d.1 := by
    intro d hd
    have := mem_rtakeWhile_imp hd
    simp only [decide_eq_true_eq] at this
    omega
  rw [← hsplit] at h
  obtain ⟨h₁, h₂, h₁₂⟩ := pairwise_append.1 h
  have hbelow : ∀ d ∈ sacks.rdropWhile fun c => decide (c.1 > b.1), d.1 ≤ b.1 := by
    intro d hd
    have hne := ne_nil_of_mem hd
    have hlast := rdropWhile_last_not (fun c : ℤ × ℤ => decide (c.1 > b.1)) sacks hne
    simp only [gt_iff_lt, decide_eq_true_eq, not_lt] at hlast
    rw [← dropLast_append_getLast hne] at h₁ hd
    rcases mem_append.1 hd with hd | hd
    · exact ((pairwise_append.1 h₁).2.2 d hd _ (mem_singleton_self _)).trans hlast
    · rw [mem_singleton.1 hd]
      exact hlast
  refine pairwise_append.2 ⟨h₁, pairwise_cons.2 ⟨habove, h₂⟩, fun d hd e he => ?_⟩
  rcases mem_cons.1 he with rfl | he
  · exact hbelow d hd
  · exact h₁₂ d hd e he

theorem sorted_sortSacks (lastAck : ℤ) (blocks : List (ℤ × ℤ)) :
    (sortSacks lastAck blocks).Pairwise fun c d => c.1 ≤ d.1 := by
  rw [sortSacks]
  induction blocks using reverseRecOn with
  | nil => exact Pairwise.nil
  | append_singleton blocks b ih =>
    rw [foldl_append, foldl_cons, foldl_nil]
    split_ifs
    · exact sorted_insertSack ih
    · exact ih

theorem mem_insertSack {d : ℤ × ℤ} : d ∈ insertSack b sacks ↔ d = b ∨ d ∈ sacks := by
  conv_rhs => rw [← rdropWhile_append_rtakeWhile (p := fun c : ℤ × ℤ => decide (c.1 > b.1))
    (l := sacks)]
  rw [insertSack, mem_append, mem_cons, mem_append]
  tauto

theorem mem_of_mem_sortSacks {blocks : List (ℤ × ℤ)} (h : b ∈ sortSacks lastAck blocks) :
    b ∈ blocks := by
  rw [sortSacks] at h
  induction blocks using reverseRecOn with
  | nil => cases h
  | append_singleton blocks b' ih =>
    rw [foldl_append, foldl_cons, foldl_nil] at h
    rw [mem_append, mem_singleton]
    split_ifs at h
    · exact (mem_insertSack.1 h).symm.imp_left ih
    · exact Or.inl (ih h)

/-- A block covers the packet. -/
def Covered (sacks : List (ℤ × ℤ)) (x : ℤ) : Prop := ∃ b ∈ sacks, b.1 ≤ x ∧ x < b.2

/-- The packet counts as lost when it is visited. -/
def Losing (sacks : List (ℤ × ℤ)) (fack ackedRtxId dupackThreshold : ℤ) (n : ScoreBoardNode1)
    (x : ℤ) : Prop :=
  ¬Covered sacks x ∧ (n.flag = .lost ∨
    n.flag = .inflight ∧ x ≤ fack - (dupackThreshold + 1) ∨
    n.flag = .retransmitted ∧ LostAgain fack ackedRtxId dupackThreshold n)

/-- The first packet `p` above all blocks that is not SACKED ends the traversal: nothing up to it
counts as lost, and a LOST node is behind it. -/
def Missed (sacks : List (ℤ × ℤ)) (fack ackedRtxId dupackThreshold : ℤ)
    (l : List ScoreBoardNode1) (p : ℤ) : Prop :=
  (∃ n ∈ l, On n p ∧ n.flag ≠ .sacked) ∧ (∀ b ∈ sacks, b.2 ≤ p) ∧
    (∀ x ≤ p, ∀ n ∈ l, On n x → ¬Losing sacks fack ackedRtxId dupackThreshold n x) ∧
    ∃ n ∈ l, n.flag = .lost ∧ p < n.getEnd

theorem mem_dropWhile_of_lt (hb : b ∈ sacks) (hlt : x < b.2) :
    b ∈ sacks.dropWhile fun b => decide (b.2 ≤ x) := by
  induction sacks with
  | nil => cases hb
  | cons d sacks ih =>
    rw [dropWhile_cons]
    split_ifs with hd
    · rcases mem_cons.1 hb with rfl | hb
      · simp at hd
        omega
      · exact ih hb
    · exact hb

theorem covered_dropWhile (hlow : now.seq ≤ x) :
    Covered (sacks.dropWhile fun b => decide (b.2 ≤ now.seq)) x ↔ Covered sacks x := by
  constructor
  · rintro ⟨b, hb, hx⟩
    exact ⟨b, (dropWhile_sublist _).subset hb, hx⟩
  · rintro ⟨b, hb, hx⟩
    exact ⟨b, mem_dropWhile_of_lt hb (by omega), hx⟩

theorem Fate.cases (h : Fate dupackThreshold k sacks part new thorough)
    (hsorted : sacks.Pairwise fun c d => c.1 ≤ d.1) :
    (∃ b ∈ sacks, b.1 ≤ part.seq ∧ part.getEnd < b.2 ∧ new.flag = .sacked ∧
      thorough = (k.thorough || decide (part.flag = .retransmitted))) ∨
    (∀ b ∈ sacks, part.getEnd < b.1) ∧ thorough = k.thorough ∧
      ((part.flag = .lost ∨
        part.flag = .inflight ∧ part.getEnd ≤ k.board.fack - (dupackThreshold + 1) ∨
        part.flag = .retransmitted ∧
          LostAgain k.board.fack k.board.ackedRtxId dupackThreshold part) ∧ new.flag = .lost ∨
      (part.flag = .inflight ∧ k.board.fack - (dupackThreshold + 1) < part.seq ∨
        part.flag = .retransmitted ∧
          ¬LostAgain k.board.fack k.board.ackedRtxId dupackThreshold part) ∧ new = part) := by
  have hall : (∀ b ∈ sacks.head?, part.getEnd < b.1) → ∀ b ∈ sacks, part.getEnd < b.1 := by
    intro hahead b hb
    cases sacks with
    | nil => cases hb
    | cons d sacks =>
      have hd := hahead d rfl
      rcases mem_cons.1 hb with rfl | hb
      · exact hd
      · exact hd.trans_le ((pairwise_cons.1 hsorted).1 b hb)
  cases h with
  | sacked hb hleft hright =>
    exact Or.inl ⟨_, mem_of_mem_head? hb, hleft, hright, rfl, rfl⟩
  | lost hahead hlost => exact Or.inr ⟨hall hahead, rfl, Or.inl ⟨hlost, rfl⟩⟩
  | kept hahead hkept => exact Or.inr ⟨hall hahead, rfl, Or.inr ⟨hkept, rfl⟩⟩

theorem Fate.thorough_mono (h : Fate dupackThreshold k sacks part new thorough)
    (hk : k.thorough = true) : thorough = true := by
  cases h with
  | sacked => rw [hk, Bool.true_or]
  | lost => exact hk
  | kept => exact hk

section

variable (h : Stepped dupackThreshold k now rest part new cut k₁)
include h

theorem Stepped.thorough_mono (hk : k.thorough = true) : k₁.thorough = true := by
  rcases h.fate with ⟨-, -, -, -, -, heq⟩ | ⟨-, -, hfate⟩
  · rw [heq, hk]
  · exact hfate.thorough_mono hk

theorem Stepped.sacks_sublist :
    k₁.sacks.Sublist k.sacks := by
  rcases h.fate with ⟨-, -, -, -, heq, -⟩ | ⟨-, heq, -⟩
  · rw [heq]
  · rw [heq]
    exact dropWhile_sublist _

theorem Stepped.mem_sacks (hb : b ∈ k.sacks) (hlt : now.seq < b.2) : b ∈ k₁.sacks := by
  rcases h.fate with ⟨-, -, -, -, heq, -⟩ | ⟨-, heq, -⟩
  · rwa [heq]
  · rw [heq]
    exact mem_dropWhile_of_lt hb hlt

theorem Stepped.covered (hlow : now.seq ≤ x) : Covered k₁.sacks x ↔ Covered k.sacks x := by
  rcases h.fate with ⟨-, -, -, -, heq, -⟩ | ⟨-, heq, -⟩
  · rw [heq]
  · rw [heq]
    exact covered_dropWhile hlow

theorem Stepped.todo_of_mem (hn : n ∈ cut ++ rest) : k₁.todo = cut ++ rest := by
  rw [h.todo, if_neg]
  rintro ⟨hnil, -⟩
  rw [hnil] at hn
  cases hn

theorem Stepped.mem_todo (hn : n ∈ k₁.todo) (hflag : n.flag ≠ .inflight) : n ∈ cut ++ rest := by
  rw [h.todo] at hn
  split_ifs at hn
  · rw [mem_singleton.1 hn] at hflag
    exact absurd rfl hflag
  · exact hn

end

section

variable (h : Rounds dupackThreshold a k k')
include h

theorem Rounds.thorough_mono (hk : k.thorough = true) :
    k'.thorough = true := by
  induction h with
  | stop => exact hk
  | round _ _ _ hstepped _ _ ih => exact ih (hstepped.thorough_mono hk)

theorem Rounds.lost_mono (hk : ∃ n ∈ k.done, n.flag = .lost) :
    ∃ n ∈ k'.done, n.flag = .lost := by
  induction h with
  | stop => exact hk
  | round _ _ _ hstepped _ _ ih => exact ih (hstepped.done.lost.2 (Or.inr hk))

theorem Rounds.stops : k'.stops = true := by
  induction h with
  | stop hstops => exact hstops
  | round _ _ _ _ _ _ ih => exact ih

theorem Rounds.eq_of_sacks (hsacks : k.sacks = []) (hthorough : k.thorough = false) : k' = k := by
  cases h with
  | stop => rfl
  | round hgoes =>
    simp [Pass.stops, hsacks, hthorough] at hgoes

theorem Rounds.thorough_of_covered
    (hsorted : k.sacks.Pairwise fun c d => c.1 ≤ d.1) (hn : n ∈ k.todo)
    (hflag : n.flag = .retransmitted) (hcovered : Covered k.sacks n.seq) :
    k'.thorough = true := by
  induction h with
  | @stop k hstops =>
    obtain ⟨b, hb, -⟩ := hcovered
    have htodo : k.todo.isEmpty = false := by simp [ne_nil_of_mem hn]
    have hsacks : k.sacks.isEmpty = false := by simp [ne_nil_of_mem hb]
    simp [Pass.stops, htodo, hsacks] at hstops
  | @round k k₁ k' q c now part new rest cut hgoes hsound htodo hstepped hsound₁ hrounds ih =>
    have hlinked := hsound.ahead
    rw [htodo] at hn hlinked
    have hsorted₁ := hsorted.sublist hstepped.sacks_sublist
    rcases mem_cons.1 hn with rfl | hn
    · apply hrounds.thorough_mono
      rcases hstepped.fate with ⟨hsacked, -⟩ | ⟨-, -, hfate⟩
      · rw [hsacked] at hflag
        cases hflag
      · obtain ⟨rfl, -⟩ := hstepped.parts.whole hflag
        rcases hfate.cases hsorted₁ with ⟨-, -, -, -, -, heq⟩ | ⟨hahead, -⟩
        · simp [heq, hflag]
        · obtain ⟨b, hb, hlow, hhigh⟩ := hcovered
          have := hahead b (hstepped.mem_sacks hb hhigh)
          have := hstepped.parts.nonempty
          omega
    · have hlow := (hlinked.2.2.bounds hn).1
      have hle := hlinked.2.1
      have hseq := hlinked.1
      have hmem : n ∈ cut ++ rest := mem_append_right cut hn
      refine ih hsorted₁ ?_ ((hstepped.covered (by omega)).2 hcovered)
      rw [hstepped.todo_of_mem hmem]
      exact hmem

theorem Rounds.not_thorough (hsorted : k.sacks.Pairwise fun c d => c.1 ≤ d.1)
    (hnone : ∀ n ∈ k.todo, n.flag = .retransmitted → ¬Covered k.sacks n.seq)
    (hk : k.thorough = false) : k'.thorough = false := by
  induction h with
  | stop => exact hk
  | @round k k₁ k' q c now part new rest cut hgoes hsound htodo hstepped hsound₁ hrounds ih =>
    have hsorted₁ := hsorted.sublist hstepped.sacks_sublist
    have hlinked := hsound.ahead
    rw [htodo] at hnone hlinked
    rw [forall_mem_cons] at hnone
    apply ih hsorted₁
    · intro n hn hflag hcovered
      rcases mem_append.1 (hstepped.mem_todo hn (by simp [hflag])) with hn | hn
      · have hne := hstepped.parts.linked.bounds hn
        obtain ⟨-, -, heq, hnot⟩ := hstepped.parts.on_cut hn ⟨le_rfl, hne.2.1⟩
        exact hnot (heq ▸ hflag)
      · have hlow := (hlinked.2.2.bounds hn).1
        have := hlinked.2.1
        have := hlinked.1
        exact hnone.2 n hn hflag ((hstepped.covered (by omega)).1 hcovered)
    · rcases hstepped.fate with ⟨-, -, -, -, -, heq⟩ | ⟨-, -, hfate⟩
      · rw [heq, hk]
      · rcases hfate.cases hsorted₁ with ⟨b, hb, hlow, hhigh, -, heq⟩ | ⟨-, heq, -⟩
        · rw [heq, hk, Bool.false_or]
          refine decide_eq_false fun hflag => ?_
          obtain ⟨rfl, -⟩ := hstepped.parts.whole (hstepped.parts.flag.symm.trans hflag)
          have := hstepped.parts.nonempty
          exact hnone.1 hflag ⟨b, hstepped.sacks_sublist.subset hb, hlow, by omega⟩
        · rw [heq, hk]

end

/-- Losing a packet behind the part that has been visited is the same before and after the round. -/
theorem Stepped.losing_rest (h : Stepped dupackThreshold k now rest part new cut k₁)
    (hthorough : k₁.thorough = false) (hlow : now.seq ≤ x) :
    Losing k₁.sacks k₁.board.fack k₁.board.ackedRtxId dupackThreshold n x ↔
      Losing k.sacks k.board.fack k.board.ackedRtxId dupackThreshold n x := by
  rw [Losing, Losing, h.covered hlow, h.fack, h.ackedRtxId hthorough]

theorem Losing.congr {m : ScoreBoardNode1} {fack ackedRtxId : ℤ} (hflag : m.flag = n.flag)
    (hnot : n.flag ≠ .retransmitted) :
    Losing sacks fack ackedRtxId dupackThreshold m x ↔
      Losing sacks fack ackedRtxId dupackThreshold n x := by
  simp [Losing, hflag, hnot]

section

variable (h : Stepped dupackThreshold k now rest part new cut k₁)
include h

theorem Stepped.lost_of_losing (hsorted : k.sacks.Pairwise fun c d => c.1 ≤ d.1) (hx : On part x)
    (hlosing : Losing k.sacks k.board.fack k.board.ackedRtxId dupackThreshold now x) :
    new.flag = .lost := by
  obtain ⟨hnot, hkind⟩ := hlosing
  have hflag := h.parts.flag
  rcases h.fate with ⟨hsacked, -⟩ | ⟨-, -, hfate⟩
  · simp [hsacked] at hkind
  · rcases hfate.cases (hsorted.sublist h.sacks_sublist) with ⟨b, hb, hlow, hhigh, -⟩ |
        ⟨-, -, ⟨-, hlost⟩ | ⟨⟨hin, hlt⟩ | ⟨hretran, hagain⟩, -⟩⟩
    · obtain ⟨hlow', hhigh'⟩ := hx
      exact absurd ⟨b, h.sacks_sublist.subset hb, by omega, by omega⟩ hnot
    · exact hlost
    · rw [← hflag, hin] at hkind
      simp only [reduceCtorEq, false_and, or_false, false_or, true_and] at hkind
      have := hx.1
      omega
    · obtain ⟨rfl, -⟩ := h.parts.whole (hflag ▸ hretran)
      simp [hretran] at hkind
      exact absurd hkind hagain

theorem Stepped.losing_of_lost
    (hsorted : k.sacks.Pairwise fun c d => c.1 ≤ d.1) (hlost : new.flag = .lost) :
    Losing k.sacks k.board.fack k.board.ackedRtxId dupackThreshold now now.seq := by
  have hflag := h.parts.flag
  have hseq := h.parts.seq
  have hne := h.parts.nonempty
  rcases h.fate with ⟨hsacked, -, rfl, -⟩ | ⟨-, -, hfate⟩
  · simp [hsacked] at hlost
  · rcases hfate.cases (hsorted.sublist h.sacks_sublist) with ⟨b, hb, hlow, hhigh, hs, -⟩ |
        ⟨hahead, -, ⟨hkind, -⟩ | ⟨hkept, rfl⟩⟩
    · simp [hs] at hlost
    · constructor
      · rw [← h.covered le_rfl]
        rintro ⟨b, hb, hlow, -⟩
        have := hahead b hb
        omega
      · rw [← hflag]
        refine hkind.imp_right (Or.imp (fun hin => ⟨hin.1, by omega⟩) fun hretran => ?_)
        obtain ⟨rfl, -⟩ := h.parts.whole (hflag ▸ hretran.1)
        exact hretran
    · simp [hlost] at hkept

theorem Stepped.origin (hlinked : Linked q (now :: rest) c) (hn : n ∈ cut ++ rest) (hx : On n x) :
    part.getEnd < x ∧ ∃ m ∈ now :: rest, On m x ∧ m.flag = n.flag ∧ n.getEnd ≤ m.getEnd ∧
      (k₁.thorough = false →
        (Losing k₁.sacks k₁.board.fack k₁.board.ackedRtxId dupackThreshold n x ↔
          Losing k.sacks k.board.fack k.board.ackedRtxId dupackThreshold m x)) := by
  have hpart := h.parts.nonempty
  have hseq := h.parts.seq
  have hend := h.parts.linked.le
  rcases mem_append.1 hn with hn | hn
  · obtain ⟨hon, hlow, hflag, hnot⟩ := h.parts.on_cut hn hx
    have hbounds := h.parts.linked.bounds hn
    refine ⟨hlow, now, mem_cons_self, hon, hflag.symm, by omega, fun hthorough => ?_⟩
    rw [h.losing_rest hthorough (by omega)]
    exact Losing.congr hflag hnot
  · have hbounds := hlinked.2.2.bounds hn
    have hlow := hx.1
    refine ⟨by omega, n, mem_cons_of_mem now hn, hx, rfl, le_rfl, fun hthorough => ?_⟩
    exact h.losing_rest hthorough (by omega)

theorem Stepped.remains (hn : n ∈ now :: rest) (hx : On n x) (hlow : part.getEnd < x) :
    ∃ m ∈ cut ++ rest, On m x ∧ m.flag = n.flag ∧ (k₁.thorough = false →
      (Losing k₁.sacks k₁.board.fack k₁.board.ackedRtxId dupackThreshold m x ↔
        Losing k.sacks k.board.fack k.board.ackedRtxId dupackThreshold n x)) := by
  have hpart := h.parts.nonempty
  have hseq := h.parts.seq
  rcases mem_cons.1 hn with rfl | hn
  · obtain ⟨m, hm, hon, hflag⟩ := h.parts.exists_cut hlow hx.2
    obtain ⟨-, -, -, hnot⟩ := h.parts.on_cut hm hon
    refine ⟨m, mem_append_left rest hm, hon, hflag, fun hthorough => ?_⟩
    rw [h.losing_rest hthorough (by omega)]
    exact Losing.congr hflag hnot
  · exact ⟨n, mem_append_right cut hn, hx, rfl, fun hthorough =>
      h.losing_rest hthorough (by omega)⟩

theorem Stepped.linked
    (hlinked : Linked q (now :: rest) c) : Linked (part.getEnd + 1) (cut ++ rest) c :=
  linked_append.2 ⟨now.getEnd + 1, h.parts.linked, hlinked.2.2⟩

end

section

variable (h : Rounds dupackThreshold a k k') (hsorted : k.sacks.Pairwise fun c d => c.1 ≤ d.1)
include h hsorted

/-- A LOST node is left behind, and none has been visited: the traversal was ended by a packet that
is not losing. -/
theorem Rounds.missed (hthorough : k'.thorough = false)
    (hsacks : k.sacks ≠ []) (hlost : ∃ n ∈ k'.todo, n.flag = .lost)
    (hdone : ∀ n ∈ k'.done, n.flag ≠ .lost) :
    ∃ p, Missed k.sacks k.board.fack k.board.ackedRtxId dupackThreshold k.todo p := by
  induction h with
  | @stop k hstops =>
    obtain ⟨n, hn, -⟩ := hlost
    have htodo : k.todo.isEmpty = false := by simp [ne_nil_of_mem hn]
    simp [Pass.stops, htodo, hthorough, hsacks] at hstops
  | @round k k₁ k' q c now part new rest cut hgoes hsound htodo hstepped hsound₁ hrounds ih =>
    have hlinked := hsound.ahead
    rw [htodo] at hlinked ⊢
    have hsorted₁ := hsorted.sublist hstepped.sacks_sublist
    have hthorough₁ : k₁.thorough = false := by
      by_contra hk
      rw [hrounds.thorough_mono (by simpa using hk)] at hthorough
      cases hthorough
    have hnew : new.flag ≠ .lost := by
      intro hnew
      obtain ⟨n, hn, hflag⟩ := hrounds.lost_mono (hstepped.done.lost.2 (Or.inl hnew))
      exact hdone n hn hflag
    have hnow : On now now.seq := ⟨le_rfl, hlinked.1.trans_le hlinked.2.1⟩
    have hpart := hstepped.parts.nonempty
    have hseq := hstepped.parts.seq
    -- what is losing has not been visited
    have hbehind : ∀ x, ∀ n ∈ now :: rest, On n x →
        Losing k.sacks k.board.fack k.board.ackedRtxId dupackThreshold n x → part.getEnd < x := by
      intro x n hn hx hlosing
      by_contra hle
      rcases mem_cons.1 hn with rfl | hn
      · exact hnew (hstepped.lost_of_losing hsorted ⟨hseq ▸ hx.1, not_lt.1 hle⟩ hlosing)
      · have := hlinked.2.2.bounds hn
        have := hstepped.parts.linked.le
        have := hx.1
        omega
    by_cases hsacks₁ : k₁.sacks = []
    · obtain rfl := hrounds.eq_of_sacks hsacks₁ hthorough₁
      refine ⟨now.seq, ⟨now, mem_cons_self, hnow, fun hflag => ?_⟩, fun b hb => ?_, ?_, ?_⟩
      · rcases hstepped.fate with ⟨-, -, -, -, heq, -⟩ | ⟨hnot, -⟩
        · exact hsacks (heq ▸ hsacks₁)
        · exact hnot hflag
      · by_contra hlt
        have hmem := hstepped.mem_sacks hb (not_le.1 hlt)
        rw [hsacks₁] at hmem
        cases hmem
      · intro x hle n hn hx hlosing
        have := hbehind x n hn hx hlosing
        omega
      · obtain ⟨n, hn, hflag⟩ := hlost
        have hmem := hstepped.mem_todo hn (by simp [hflag])
        have hon : On n n.getEnd := ⟨((hstepped.linked hlinked).bounds hmem).2.1, le_rfl⟩
        obtain ⟨hlow, m, hm, -, hmflag, hmend, -⟩ := hstepped.origin hlinked hmem hon
        exact ⟨m, hm, hmflag.trans hflag, by omega⟩
    · obtain ⟨p, ⟨n, hn, hon, hflag⟩, hright, hquiet, m, hm, hmflag, hmend⟩ :=
        ih hsorted₁ hthorough hsacks₁ hlost hdone
      have hmem := hstepped.mem_todo hm (by simp [hmflag])
      rw [hstepped.todo_of_mem hmem] at hn hquiet
      have honm : On m m.getEnd := ⟨((hstepped.linked hlinked).bounds hmem).2.1, le_rfl⟩
      obtain ⟨hlow, n', hn', hon', hnflag, -⟩ := hstepped.origin hlinked hn hon
      obtain ⟨-, m', hm', -, hmflag', hmend', -⟩ := hstepped.origin hlinked hmem honm
      refine ⟨p, ⟨n', hn', hon', hnflag ▸ hflag⟩, fun b hb => ?_, ?_,
        ⟨m', hm', hmflag'.trans hmflag, by omega⟩⟩
      · by_cases hlt : now.seq < b.2
        · exact hright b (hstepped.mem_sacks hb hlt)
        · omega
      · intro x hle y hy hx hlosing
        obtain ⟨z, hz, honz, -, hiff⟩ := hstepped.remains hy hx (hbehind x y hy hx hlosing)
        exact hquiet x hle z hz honz ((hiff hthorough₁).2 hlosing)

/-- The traversal is ended by a packet that is not losing: no LOST node has been visited, and one is
left behind. -/
theorem Rounds.misses (hblocks : ∀ b ∈ k.sacks, b.1 < b.2) (hthorough : k'.thorough = false)
    (hmissed : Missed k.sacks k.board.fack k.board.ackedRtxId dupackThreshold k.todo p)
    (hdone : ∀ n ∈ k.done, n.flag ≠ .lost) :
    (∀ n ∈ k'.done, n.flag ≠ .lost) ∧ ∃ n ∈ k'.todo, n.flag = .lost := by
  induction h with
  | stop =>
    obtain ⟨-, -, -, n, hn, hflag, -⟩ := hmissed
    exact ⟨hdone, n, hn, hflag⟩
  | @round k k₁ k' q c now part new rest cut hgoes hsound htodo hstepped hsound₁ hrounds ih =>
    have hlinked := hsound.ahead
    rw [htodo] at hlinked hmissed
    obtain ⟨⟨n, hn, hon, hflag⟩, hright, hquiet, m, hm, hmflag, hmend⟩ := hmissed
    have hsorted₁ := hsorted.sublist hstepped.sacks_sublist
    have hthorough₁ : k₁.thorough = false := by
      by_contra hk
      rw [hrounds.thorough_mono (by simpa using hk)] at hthorough
      cases hthorough
    have hnow : On now now.seq := ⟨le_rfl, hlinked.1.trans_le hlinked.2.1⟩
    have hpart := hstepped.parts.nonempty
    have hseq := hstepped.parts.seq
    have hlow : now.seq ≤ p := by
      have := (hlinked.bounds hn).1
      have := hlinked.1
      have := hon.1
      omega
    have hnew : new.flag ≠ .lost := fun hnew =>
      hquiet now.seq hlow now mem_cons_self hnow (hstepped.losing_of_lost hsorted hnew)
    have hdone₁ : ∀ n ∈ k₁.done, n.flag ≠ .lost := by
      intro n hn hflag
      rcases hstepped.done.lost.1 ⟨n, hn, hflag⟩ with hnew' | ⟨y, hy, hyflag⟩
      · exact hnew hnew'
      · exact hdone y hy hyflag
    have hmem : m ∈ cut ++ rest := by
      rcases mem_cons.1 hm with rfl | hm
      · refine absurd ⟨?_, Or.inl hmflag⟩ (hquiet p le_rfl m mem_cons_self ⟨hlow, hmend.le⟩)
        rintro ⟨b, hb, -, hlt⟩
        have := hright b hb
        omega
      · exact mem_append_right cut hm
    by_cases hsacks₁ : k₁.sacks = []
    · obtain rfl := hrounds.eq_of_sacks hsacks₁ hthorough₁
      refine ⟨hdone₁, m, ?_, hmflag⟩
      rw [hstepped.todo_of_mem hmem]
      exact hmem
    · have hbehind : part.getEnd < p := by
        by_contra hle
        obtain ⟨b, hb⟩ := exists_mem_of_ne_nil _ hsacks₁
        have hb' := hstepped.sacks_sublist.subset hb
        have := hblocks b hb'
        have := hright b hb'
        rcases mem_cons.1 hn with rfl | hn
        · rcases hstepped.fate with ⟨hsacked, -⟩ | ⟨-, -, hfate⟩
          · exact hflag hsacked
          · rcases hfate.cases hsorted₁ with ⟨d, hd, -, hhigh, -⟩ | ⟨hahead, -⟩
            · have := hright d (hstepped.sacks_sublist.subset hd)
              omega
            · have := hahead b hb
              omega
        · have := hlinked.2.2.bounds hn
          have := hstepped.parts.linked.le
          have := hon.1
          omega
      obtain ⟨z, hz, honz, hzflag, -⟩ := hstepped.remains hn hon hbehind
      apply ih hsorted₁ (fun b hb => hblocks b (hstepped.sacks_sublist.subset hb)) hthorough ?_ hdone₁
      rw [hstepped.todo_of_mem hmem]
      refine ⟨⟨z, hz, honz, hzflag ▸ hflag⟩,
        fun b hb => hright b (hstepped.sacks_sublist.subset hb), ?_, m, hmem, hmflag, hmend⟩
      intro x hle y hy hx hlosing
      obtain ⟨-, y', hy', hx', -, -, hiff⟩ := hstepped.origin hlinked hy hx
      exact hquiet x hle y' hy' hx' ((hiff hthorough₁).1 hlosing)

end

/-- `GetNextRetran` returns the start of the lowest LOST node, and -1 only if there is none. -/
def Remembers (s : ScoreBoard1) : Prop :=
  (∀ n, s.nodes.find? isLost = some n → s.getNextRetran.1 = n.seq) ∧
    (s.getNextRetran.1 = -1 → ∀ n ∈ s.nodes, n.flag ≠ .lost)

theorem Consistent.remembers_iff (h : s.Consistent ack) (hlow : -1 ≤ ack) :
    s.Remembers ↔ s.nxtToRetrx ≠ none ∨ ∀ n ∈ s.nodes, n.flag ≠ .lost := by
  have hnone : (∀ n ∈ s.nodes, n.flag ≠ .lost) →
      ∀ n, s.nodes.find? isLost = some n → s.getNextRetran.1 = n.seq := by
    intro hno n hfind
    have hlost := find?_some hfind
    simp only [isLost, decide_eq_true_eq] at hlost
    exact absurd hlost (hno n (mem_of_find?_eq_some hfind))
  cases hptr : s.nxtToRetrx with
  | none =>
    have hret : s.getNextRetran.1 = -1 := by simp [ScoreBoard1.getNextRetran, hptr]
    simp only [ne_eq, not_true_eq_false, false_or]
    exact ⟨fun hrem => hrem.2 hret, fun hno => ⟨hnone hno, fun _ => hno⟩⟩
  | some k =>
    simp only [ne_eq, reduceCtorEq, not_false_eq_true, true_or, iff_true]
    rcases s.getNextRetran_cases fun k hk => (h.pointer k hk).2 with
      ⟨j, n, heq, hget, hlost, hbefore⟩ | ⟨-, hno⟩
    · obtain ⟨hj, hn⟩ := List.getElem?_eq_some_iff.1 hget
      have hfind : s.nodes.find? isLost = some n := by
        rw [← List.take_append_drop j s.nodes, List.drop_eq_getElem_cons hj, hn,
          find?_append, find?_eq_none.2 fun m hm => by simpa [isLost] using hbefore m hm,
          Option.none_or, find?_cons_of_pos (by simp [isLost, hlost])]
      rw [Remembers, heq, hfind]
      refine ⟨fun m hm => by rw [Option.some.inj hm], fun hseq => ?_⟩
      obtain ⟨c, hl⟩ := h.linked
      have := (hl.bounds (mem_of_getElem? hget)).1
      omega
    · have hno := hno.resolve_left (by simp [hptr])
      exact ⟨hnone hno, fun _ => hno⟩

/-- The traversal goes to the end of the queue: a retransmission newer than those before is
acknowledged, `fack_` moves, or a block covers a retransmission. -/
def Thorough (lastAck : ℤ) (sacks : List (ℤ × ℤ)) (s : ScoreBoard1) : Prop :=
  s.nodes.any (newer s.ackedRtxId lastAck) = true ∨ s.fack < advanceFack sacks s.fack ∨
    ∃ n ∈ afterAck lastAck s.nodes, n.flag = .retransmitted ∧ Covered sacks n.seq

/-- A LOST node is left that the pointer does not reach: it was NULL and there is no traversal, or
the traversal ends before the first packet that counts as lost. -/
def Forgets (lastAck : ℤ) (blocks : List (ℤ × ℤ)) (dupackThreshold : ℤ) (s : ScoreBoard1) : Prop :=
  ¬s.Thorough lastAck (sortSacks lastAck blocks) ∧
    ((∃ n ∈ afterAck lastAck s.nodes, n.flag = .lost) ∧ s.nxtToRetrx = none ∧
        sortSacks lastAck blocks = [] ∨
      sortSacks lastAck blocks ≠ [] ∧ ∃ p, Missed (sortSacks lastAck blocks) s.fack s.ackedRtxId
        dupackThreshold (afterAck lastAck s.nodes) p)

theorem not_covered_nil (x : ℤ) : ¬Covered [] x := by
  rintro ⟨b, hb, -⟩
  cases hb

theorem advanceFack_of_not_lt {fack : ℤ} (h : ¬fack < advanceFack sacks fack) :
    advanceFack sacks fack = fack := by
  rw [advanceFack] at h ⊢
  split at h
  · split_ifs at h ⊢ with hlt
    · exact absurd hlt h
    · rfl
  · rfl

theorem Pass.Sound.remembers {k : Pass} (h : k.Sound (ack + 1) q c) (hlow : -1 ≤ ack) :
    k.result.Remembers ↔
      ¬((∀ n ∈ k.done, n.flag ≠ .lost) ∧ ∃ n ∈ k.todo, n.flag = .lost) := by
  have hptr : k.result.nxtToRetrx ≠ none ↔ ∃ n ∈ k.done, n.flag = .lost := by
    have heq : k.result.nxtToRetrx = k.done.reverse.findIdx? isLost := h.pointer
    rw [heq, ne_eq, findIdx?_eq_none_iff]
    simp [isLost]
  rw [h.result.remembers_iff hlow, hptr]
  simp only [Pass.result, mem_append, mem_reverse]
  constructor
  · rintro (⟨n, hn, hflag⟩ | hnone) ⟨hdone, m, hm, hmflag⟩
    · exact hdone n hn hflag
    · exact hnone m (Or.inr hm) hmflag
  · intro hnot
    by_cases hdone : ∃ n ∈ k.done, n.flag = .lost
    · exact Or.inl hdone
    · right
      push Not at hdone hnot
      rintro n (hn | hn)
      · exact hdone n hn
      · exact hnot hdone n hn

/-- The pass over a queue that is not empty, in terms of what came before the acknowledgement. -/
theorem Prepared.start (h : Prepared lastAck s s₁ thorough) (hne : s₁.nodes ≠ []) (flag : AckFlags)
    (sacks : List (ℤ × ℤ)) :
    (Pass.start lastAck sacks flag thorough s₁).todo = afterAck lastAck s.nodes ∧
      (Pass.start lastAck sacks flag thorough s₁).board.fack = advanceFack sacks s.fack ∧
      (Pass.start lastAck sacks flag thorough s₁).thorough =
        (s.nodes.any (newer s.ackedRtxId lastAck) || decide (s.fack < advanceFack sacks s.fack)) ∧
      ((Pass.start lastAck sacks flag thorough s₁).thorough = false →
        (Pass.start lastAck sacks flag thorough s₁).board.ackedRtxId = s.ackedRtxId) := by
  have hfack : s₁.fack = s.fack := by rw [h.fack, if_neg hne]
  have hthorough := h.fromAck
  rw [isEmpty_eq_false_iff.2 hne, Bool.not_false, Bool.true_and] at hthorough
  refine ⟨(if_neg hne).trans h.nodes, ?_, ?_, fun hfalse => ?_⟩
  · simp only [Pass.start, hfack]
  · simp only [Pass.start, hfack, hthorough]
  · simp only [Pass.start, Bool.or_eq_false_iff] at hfalse
    exact h.ackedRtxId hfalse.1 hne

theorem not_thorough_nil (hnewer : s.nodes.any (newer s.ackedRtxId lastAck) = false) :
    ¬s.Thorough lastAck [] := by
  rintro (h | h | ⟨n, -, -, h⟩)
  · rw [hnewer] at h
    cases h
  · exact lt_irrefl _ h
  · exact not_covered_nil _ h

theorem Prepared.remembers (h : Prepared lastAck s s₁ false) (hlow : -1 ≤ lastAck)
    (hnil : sortSacks lastAck blocks = []) (dupackThreshold : ℤ) :
    s₁.Remembers ↔ ¬s.Forgets lastAck blocks dupackThreshold := by
  have hpointer := h.pointer
  have hthorough : (∃ n ∈ s₁.nodes, n.flag = .lost) → ¬s.Thorough lastAck [] := by
    rintro ⟨n, hn, -⟩
    apply not_thorough_nil
    have hfrom := h.fromAck
    rwa [isEmpty_eq_false_iff.2 (ne_nil_of_mem hn), Bool.not_false, Bool.true_and,
      eq_comm] at hfrom
  rw [h.consistent.remembers_iff hlow, Forgets, hnil, ← h.nodes, ne_eq, hpointer]
  constructor
  · rintro hrem ⟨-, ⟨⟨n, hn, hflag⟩, hptr, -⟩ | ⟨hne, -⟩⟩
    · rcases hrem with hrem | hrem
      · exact hrem (Or.inl hptr)
      · exact hrem n hn hflag
    · exact hne rfl
  · intro hnot
    by_cases hlost : ∃ n ∈ s₁.nodes, n.flag = .lost
    · left
      rintro (hptr | hnodes)
      · exact hnot ⟨hthorough hlost, Or.inl ⟨hlost, hptr, rfl⟩⟩
      · obtain ⟨n, hn, -⟩ := hlost
        rw [hnodes] at hn
        cases hn
    · right
      push Not at hlost
      exact hlost

section

variable (h : Prepared lastAck s s₁ thorough)
  (hgoes : ¬(thorough = false ∧ sortSacks lastAck blocks = []))
include h hgoes

theorem Prepared.forgets {flag : AckFlags} (hrounds : Rounds dupackThreshold a
      (Pass.start lastAck (sortSacks lastAck blocks) flag thorough s₁) k')
    (hdone : ∀ n ∈ k'.done, n.flag ≠ .lost) (hlost : ∃ n ∈ k'.todo, n.flag = .lost) :
    s.Forgets lastAck blocks dupackThreshold := by
  have hsorted := sorted_sortSacks lastAck blocks
  have hthorough : k'.thorough = false := by
    have hstops := hrounds.stops
    obtain ⟨n, hn, -⟩ := hlost
    have htodo : k'.todo.isEmpty = false := by simp [ne_nil_of_mem hn]
    simp only [Pass.stops, htodo, Bool.false_or, Bool.and_eq_true, Bool.not_eq_true'] at hstops
    exact hstops.2
  have hthorough₀ :
      (Pass.start lastAck (sortSacks lastAck blocks) flag thorough s₁).thorough = false := by
    by_contra hk
    rw [hrounds.thorough_mono (by simpa using hk)] at hthorough
    cases hthorough
  have hsacks : sortSacks lastAck blocks ≠ [] := fun hnil =>
    hgoes ⟨(Bool.or_eq_false_iff.1 hthorough₀).1, hnil⟩
  obtain ⟨p, hmissed⟩ := hrounds.missed hsorted hthorough hsacks hlost hdone
  have hne : s₁.nodes ≠ [] := by
    intro hnil
    obtain ⟨-, -, -, n, hn, hflag, -⟩ := hmissed
    simp only [Pass.start, if_pos hnil, mem_singleton] at hn
    rw [hn] at hflag
    cases hflag
  obtain ⟨htodo, hfack, heq, hacked⟩ := h.start hne flag (sortSacks lastAck blocks)
  have hacked := hacked hthorough₀
  rw [hthorough₀, eq_comm, Bool.or_eq_false_iff, decide_eq_false_iff_not] at heq
  rw [htodo, hfack, hacked, advanceFack_of_not_lt heq.2] at hmissed
  refine ⟨?_, Or.inr ⟨hsacks, p, hmissed⟩⟩
  rintro (hnewer | hlt | ⟨n, hn, hflag, hcovered⟩)
  · rw [heq.1] at hnewer
    cases hnewer
  · exact heq.2 hlt
  · rw [hrounds.thorough_of_covered hsorted (htodo ▸ hn) hflag hcovered] at hthorough
    cases hthorough

theorem Prepared.misses {flag : AckFlags} (hrounds : Rounds dupackThreshold a
      (Pass.start lastAck (sortSacks lastAck blocks) flag thorough s₁) k')
    (hblocks : ∀ b ∈ blocks, b.1 < b.2) (hforgets : s.Forgets lastAck blocks dupackThreshold) :
    (∀ n ∈ k'.done, n.flag ≠ .lost) ∧ ∃ n ∈ k'.todo, n.flag = .lost := by
  have hsorted := sorted_sortSacks lastAck blocks
  have hordered : ∀ b ∈ sortSacks lastAck blocks, b.1 < b.2 := fun b hb =>
    hblocks b (mem_of_mem_sortSacks hb)
  obtain ⟨hnot, ⟨-, -, hnil⟩ | ⟨-, p, hmissed⟩⟩ := hforgets
  · have hthorough : thorough = true := by
      by_contra hk
      exact hgoes ⟨by simpa using hk, hnil⟩
    refine absurd (Or.inl ?_) hnot
    have hfrom := h.fromAck
    rw [hthorough, eq_comm, Bool.and_eq_true] at hfrom
    exact hfrom.2
  · have hne : s₁.nodes ≠ [] := by
      obtain ⟨-, -, -, n, hn, -⟩ := hmissed
      rw [h.nodes]
      exact ne_nil_of_mem hn
    obtain ⟨htodo, hfack, heq, hacked⟩ := h.start hne flag (sortSacks lastAck blocks)
    have hnewer : s.nodes.any (newer s.ackedRtxId lastAck) = false := by
      by_contra hany
      exact hnot (Or.inl (by simpa using hany))
    have hlt : ¬s.fack < advanceFack (sortSacks lastAck blocks) s.fack := fun hlt =>
      hnot (Or.inr (Or.inl hlt))
    rw [hnewer, Bool.false_or, decide_eq_false hlt] at heq
    have hthorough : k'.thorough = false := by
      apply hrounds.not_thorough hsorted ?_ heq
      intro n hn hflag hcovered
      exact hnot (Or.inr (Or.inr ⟨n, htodo ▸ hn, hflag, hcovered⟩))
    apply hrounds.misses hsorted hordered hthorough ?_ (p := p)
    · intro n hn
      cases hn
    · rw [htodo, hfack, hacked heq, advanceFack_of_not_lt hlt]
      exact hmissed

end

/-- The pointer is the lowest LOST node, except after the acknowledgements of `Forgets`. -/
theorem Consistent.remembers_updateScoreBoard (h : s.Consistent ack)
    (hlow : -1 ≤ ack) (hack : ack ≤ lastAck) (hfits : s.Fits lastAck blocks)
    (dupackThreshold : ℤ) :
    ∃ s' flag, s.updateScoreBoard lastAck blocks dupackThreshold = some (s', flag) ∧
      (¬s.Forgets lastAck blocks dupackThreshold → s'.Remembers) ∧
      ((∀ b ∈ blocks, b.1 < b.2) → s'.Remembers → ¬s.Forgets lastAck blocks dupackThreshold) := by
  obtain ⟨s₁, flag, thorough, hprepared, ⟨rfl, hnil, heq⟩ |
    ⟨hgoes, k', q, c, c', heq, hstart, hk', hrounds⟩⟩ :=
      h.updateScoreBoard_cases hack hfits dupackThreshold
  · have hiff := hprepared.remembers (hlow.trans hack) hnil dupackThreshold
    exact ⟨s₁, flag, heq, hiff.2, fun _ => hiff.1⟩
  · refine ⟨k'.result, k'.flag, heq, ?_⟩
    rw [hk'.remembers (hlow.trans hack)]
    constructor
    · rintro hnot ⟨hdone, hlost⟩
      exact hnot (hprepared.forgets hgoes hrounds hdone hlost)
    · intro hblocks hrem hforgets
      exact hrem (hprepared.misses hgoes hrounds hblocks hforgets)

end ScoreBoard1

namespace AckedBoard

open ScoreBoard1 ScoreBoardNode1

variable {s s' : AckedBoard} {call : BoardCall} {calls : List BoardCall}
  {P : AckedBoard → BoardCall → Prop} {lastAck dupackThreshold : ℤ} {blocks : List (ℤ × ℤ)}

theorem throughout_concat (h : Throughout P s (calls ++ [call])) :
    Throughout P s calls ∧ ∀ s' ∈ s.run calls, P s' call := by
  obtain ⟨hcalls, hcall⟩ := Machine.RunsWith.append h
  refine ⟨hcalls, fun s' hs' => ?_⟩
  rw [AckedBoard.run, ← Machine.silent_run] at hs'
  obtain ⟨r, hr, rfl⟩ := Option.map_eq_some_iff.1 hs'
  exact (hcall r.1 r.2 hr).1

theorem step_highestAck (hcall : s.InOrder call) (hstep : s.step call = some s') :
    s.highestAck ≤ s'.highestAck := by
  cases call with
  | update lastAck blocks dupackThreshold =>
    obtain ⟨r, -, rfl⟩ := Option.map_eq_some_iff.1 hstep
    exact hcall
  | getNextRetran => exact (Option.some.inj hstep) ▸ le_rfl
  | markRetran sndNxt =>
    simp only [AckedBoard.step] at hstep
    split_ifs at hstep
    · exact (Option.some.inj hstep) ▸ le_rfl
    · obtain ⟨r, -, rfl⟩ := Option.map_eq_some_iff.1 hstep
      exact le_rfl
  | markLoss sndNxt =>
    obtain ⟨r, -, rfl⟩ := Option.map_eq_some_iff.1 hstep
    exact le_rfl
  | clear => exact (Option.some.inj hstep) ▸ le_rfl

theorem run_highestAck (hcalls : Throughout InOrder s calls) (hrun : s.run calls = some s') :
    s.highestAck ≤ s'.highestAck := by
  rw [AckedBoard.run, ← Machine.silent_run] at hrun
  obtain ⟨r, hr, rfl⟩ := Option.map_eq_some_iff.1 hrun
  exact Machine.RunsWith.keeps (I := fun t => s.highestAck ≤ t.highestAck)
    (fun t call t' _ ht hok hstep => ht.trans (step_highestAck hok (Machine.silent_step_iff.1 hstep)))
    hcalls hr le_rfl

/-- After an acknowledgement `GetNextRetran` knows the lowest LOST node, except for those of
`Forgets`; blocks that are empty may end the traversal elsewhere. -/
theorem remembers_after_update
    (hcalls : Throughout InOrder init (calls ++ [.update lastAck blocks dupackThreshold]))
    (hfits : Throughout Fits init (calls ++ [.update lastAck blocks dupackThreshold])) :
    ∃ s s', init.run calls = some s ∧
      s.step (.update lastAck blocks dupackThreshold) = some s' ∧
      (¬s.board.Forgets lastAck blocks dupackThreshold → s'.board.Remembers) ∧
      ((∀ b ∈ blocks, b.1 < b.2) → s'.board.Remembers →
        ¬s.board.Forgets lastAck blocks dupackThreshold) := by
  obtain ⟨hcalls, hlast⟩ := throughout_concat hcalls
  obtain ⟨hfits, hfit⟩ := throughout_concat hfits
  obtain ⟨s, hrun, h⟩ := run_consistent Consistent.init hcalls hfits
  obtain ⟨board, flag, heq, hboth⟩ := h.remembers_updateScoreBoard (run_highestAck hcalls hrun)
    (hlast s hrun) (hfit s hrun) dupackThreshold
  refine ⟨s, ⟨board, lastAck⟩, hrun, ?_, hboth⟩
  rw [AckedBoard.step, heq, Option.map_some]

/-- Packet 1 and packets 3 and 4 are lost behind packets 2 and 8; 1 and 3 are sent again. -/
def retranCalls : List BoardCall :=
  [.update 0 [(2, 3), (8, 9)] 3, .markRetran 9, .markRetran 9]

theorem remembers_after_update_retranCalls :
    ∃ s s', init.run retranCalls = some s ∧ s.step (.update 1 [(8, 10)] 3) = some s' ∧
      (¬s.board.Forgets 1 [(8, 10)] 3 → s'.board.Remembers) ∧
      ((∀ b ∈ [((8 : ℤ), (10 : ℤ))], b.1 < b.2) → s'.board.Remembers →
        ¬s.board.Forgets 1 [(8, 10)] 3) :=
  remembers_after_update (by decide +kernel) (by decide +kernel)

/-- The block of packet 2 comes again: the traversal ends at packet 3, before packet 4. -/
theorem not_remembers_retranCalls :
    ¬∀ calls lastAck blocks dupackThreshold,
      Throughout InOrder init (calls ++ [.update lastAck blocks dupackThreshold]) →
      Throughout Fits init (calls ++ [.update lastAck blocks dupackThreshold]) →
      ∃ s', init.run (calls ++ [.update lastAck blocks dupackThreshold]) = some s' ∧
        s'.board.Remembers := by
  intro h
  obtain ⟨s', hrun, -, hnone⟩ := h retranCalls 0 [(2, 3)] 3 (by decide +kernel) (by decide +kernel)
  have hs' : init.run (retranCalls ++ [.update 0 [(2, 3)] 3]) =
      some ⟨⟨[⟨.retransmitted, 1, 9, 0⟩, ⟨.sacked, 2, 2, 0⟩, ⟨.retransmitted, 3, 9, 1⟩,
        ⟨.lost, 4, 4, 0⟩, ⟨.inflight, 5, 7, 0⟩, ⟨.sacked, 8, 8, 0⟩], none, -1, 2, 8, 1, 2, 3⟩, 0⟩ := by
    decide +kernel
  obtain rfl := Option.some.inj (hrun.symm.trans hs')
  exact hnone rfl ⟨.lost, 4, 4, 0⟩ (by decide) rfl

end AckedBoard

end Ns2
