import Ns2.Tcp.ScoreBoard1Clean

/-! `MarkLoss`, `GetNextRetran` and `MarkRetran` keep the queue and the counters in step. -/

namespace Ns2.ScoreBoard1

open ScoreBoardNode1

variable {s s' : ScoreBoard1} {n now prev : ScoreBoardNode1} {rest l done todo : List ScoreBoardNode1}
  {ack sndNxt a q c : ℤ}

theorem Walk.more (h : Walk a q c s done rest) (sndNxt : ℤ) :
    ∃ c', Walk a q c' s done (if rest = [] ∧ q < sndNxt then
        [ScoreBoardNode1.new q (sndNxt - 1) .inflight] else rest) ∧
      (if rest = [] ∧ q < sndNxt then
        [ScoreBoardNode1.new q (sndNxt - 1) .inflight] else rest).length +
          (if c' < sndNxt then 1 else 0) ≤ rest.length + if c < sndNxt then 1 else 0 := by
  by_cases hlast : rest = [] ∧ q < sndNxt
  · obtain ⟨rfl, hlt⟩ := hlast
    obtain rfl : q = c := h.ahead
    refine ⟨sndNxt - 1 + 1, ?_, ?_⟩
    · rw [if_pos ⟨rfl, hlt⟩]
      exact h.append (by omega)
    · rw [if_pos ⟨rfl, hlt⟩, if_neg (by omega), if_pos hlt]
      simp
  · refine ⟨c, ?_, ?_⟩ <;> rw [if_neg hlast]
    exact h

/-- The queue and its counters, with the pointer on the first LOST node. -/
structure Marked (a : ℤ) (s : ScoreBoard1) : Prop where
  linked : ∃ c, Linked a s.nodes c
  sackOut : s.sackOut = packets .sacked s.nodes
  fackOut : s.fackOut = packets .lost s.nodes
  pointer : s.nxtToRetrx = s.nodes.findIdx? isLost

theorem Walk.marked (h : Walk a q c s done []) : Marked a { s with nodes := done.reverse } := by
  refine ⟨⟨q, h.visited⟩, ?_, ?_, h.pointer⟩
  · rw [packets_reverse]
    simpa using h.sackOut
  · rw [packets_reverse]
    simpa using h.fackOut

theorem findIdx?_reverse_cons_of_lost (hn : n.flag ≠ .lost) :
    (n :: done).reverse.findIdx? isLost = done.reverse.findIdx? isLost := by
  simp [List.findIdx?_append, isLost, hn]

theorem fackOut_setLost (s : ScoreBoard1) (now : ScoreBoardNode1) :
    (if now.flag = .lost then s
      else { s with fackOut := s.fackOut + (now.getEnd - now.seq + 1) }).fackOut =
        s.fackOut + packets .lost [now.setFlag .lost] - packets .lost [now] := by
  have hlen := now.getLength_eq
  have hlen' := (now.setFlag .lost).getLength_eq
  have hseq : (now.setFlag .lost).seq = now.seq := rfl
  have hend : (now.setFlag .lost).getEnd = now.getEnd := setFlag_getEnd (by decide)
  by_cases hl : now.flag = .lost <;> simp [hl] <;> omega

theorem Walk.mergeLost (h : Walk a q c s (prev :: done) (now :: rest)) (hflag : prev.flag = .lost)
    (hsacked : now.flag ≠ .sacked) (hsackOut : s'.sackOut = s.sackOut)
    (hfackOut : s'.fackOut = s.fackOut + packets .lost [now.setFlag .lost] - packets .lost [now])
    (hptr : s'.nxtToRetrx = s.nxtToRetrx) :
    s'.nxtToRetrx ≠ some (done.length + 1) ∧
      Walk a (now.getEnd + 1) c s' (prev.merge (now.setFlag .lost) :: done) rest := by
  have hne : now.seq ≤ now.getEnd := h.ahead.1.trans_le h.ahead.2.1
  have hm : prev.mergable (now.setFlag .lost) = true := by simp [mergable_iff, hflag]
  obtain ⟨j, hj⟩ : ∃ j, (prev :: done).reverse.findIdx? isLost = some j := by
    rw [← Option.isSome_iff_exists, List.findIdx?_isSome, List.any_eq_true]
    exact ⟨prev, by simp, by simp [isLost, hflag]⟩
  have hlt : j < done.length + 1 := by
    obtain ⟨hlt, -⟩ := List.findIdx?_eq_some_iff_getElem.1 hj
    simpa using hlt
  have hpointer : s'.nxtToRetrx = some j := by rw [hptr, h.pointer, hj]
  constructor
  · rw [hpointer]
    simp
    omega
  · refine h.advance (Cut.refl hne) (setFlag_seq (f := .lost)) (setFlag_getEnd (by decide))
      (Joins.merge hm) ?_ hfackOut ?_
    · simp [hsackOut, hsacked]
    · rw [hpointer, List.reverse_cons, List.findIdx?_append, hj, Option.some_or]

theorem Walk.pushLost (h : Walk a q c s done (now :: rest)) (hsacked : now.flag ≠ .sacked)
    (hsackOut : s'.sackOut = s.sackOut)
    (hfackOut : s'.fackOut = s.fackOut + packets .lost [now.setFlag .lost] - packets .lost [now])
    (hptr : s'.nxtToRetrx = s.nxtToRetrx) :
    Walk a (now.getEnd + 1) c (if s'.nxtToRetrx = none then
      { s' with nxtToRetrx := some done.length } else s') (now.setFlag .lost :: done) rest := by
  have hne : now.seq ≤ now.getEnd := h.ahead.1.trans_le h.ahead.2.1
  refine h.advance (Cut.refl hne) (setFlag_seq (f := .lost)) (setFlag_getEnd (by decide)) Joins.push ?_ ?_ ?_
  · split_ifs <;> simp [hsackOut, hsacked]
  · split_ifs <;> exact hfackOut
  · rw [List.reverse_cons, List.findIdx?_append, ← h.pointer]
    cases hs : s.nxtToRetrx <;> simp [isLost, hptr, hs]

theorem Walk.markLossFrom {fuel : ℕ} {lastLost : Bool} (h : Walk a q c s done todo)
    (hfuel : todo.length + (if c < sndNxt then 1 else 0) < fuel)
    (hlast : lastLost = true ↔ ∃ prev ∈ done.head?, prev.flag = .lost) :
    ∃ s', markLossFrom sndNxt fuel done lastLost todo s = some s' ∧ Marked a s' ∧
      (s'.nodes = [] → done = [] ∧ todo = []) := by
  induction fuel generalizing s done todo q c lastLost with
  | zero => cases hfuel
  | succ fuel ih =>
    cases todo with
    | nil => exact ⟨_, rfl, h.marked, fun hnil => ⟨by simpa using hnil, rfl⟩⟩
    | cons now rest =>
      have hne : now.seq ≤ now.getEnd := h.ahead.1.trans_le h.ahead.2.1
      rw [List.length_cons] at hfuel
      rw [ScoreBoard1.markLossFrom]
      by_cases hsacked : now.flag = .sacked
      · rw [if_pos hsacked]
        have hnext := h.advance (Cut.refl hne) rfl rfl Joins.push (by omega) (by omega)
          (h.pointer.trans (findIdx?_reverse_cons_of_lost (by simp [hsacked])).symm)
        rw [List.nil_append] at hnext
        obtain ⟨c', hmore, hlen⟩ := hnext.more sndNxt
        have hhead : false = true ↔ ∃ prev ∈ (now :: done).head?, prev.flag = .lost := by
          simp [hsacked]
        obtain ⟨s', hrun, hmarked, hnil⟩ := ih hmore (by omega) hhead
        exact ⟨s', hrun, hmarked, fun h' => absurd (hnil h').1 (by simp)⟩
      · rw [if_neg hsacked]
        have hfackOut := fackOut_setLost s now
        have hend : (now.setFlag .lost).getEnd = now.getEnd := setFlag_getEnd (by decide)
        set s₁ : ScoreBoard1 := if now.flag = .lost then s
          else { s with fackOut := s.fackOut + (now.getEnd - now.seq + 1) } with hs₁
        have hsackOut : s₁.sackOut = s.sackOut := by rw [hs₁]; split_ifs <;> rfl
        have hptr : s₁.nxtToRetrx = s.nxtToRetrx := by rw [hs₁]; split_ifs <;> rfl
        dsimp only
        cases lastLost with
        | true =>
          obtain ⟨prev, hprev, hflag⟩ := hlast.1 rfl
          obtain ⟨done, rfl⟩ := List.head?_eq_some_iff.1 hprev
          have hm : prev.mergable (now.setFlag .lost) = true := by simp [mergable_iff, hflag]
          obtain ⟨hvalid, hnext⟩ := h.mergeLost hflag hsacked hsackOut hfackOut hptr
          obtain ⟨c', hmore, hlen⟩ := hnext.more sndNxt
          have hhead : true = true ↔ ∃ prev' ∈ (prev.merge (now.setFlag .lost) :: done).head?,
              prev'.flag = .lost := by simpa [merge] using hflag
          obtain ⟨s', hrun, hmarked, hnil⟩ := ih hmore (by omega) hhead
          refine ⟨s', ?_, hmarked, fun h' => absurd (hnil h').1 (by simp)⟩
          dsimp only
          rw [if_neg hvalid, merge_getEnd hm, hend]
          exact hrun
        | false =>
          have hnext := h.pushLost hsacked hsackOut hfackOut hptr
          obtain ⟨c', hmore, hlen⟩ := hnext.more sndNxt
          have hhead : true = true ↔ ∃ prev' ∈ (now.setFlag .lost :: done).head?,
              prev'.flag = .lost := by simp
          obtain ⟨s', hrun, hmarked, hnil⟩ := ih hmore (by omega) hhead
          refine ⟨s', ?_, hmarked, fun h' => absurd (hnil h').1 (by simp)⟩
          dsimp only
          rw [hend]
          exact hrun

theorem Marked.consistent (h : Marked (ack + 1) s) : s.Consistent ack := by
  refine ⟨h.linked, h.sackOut, h.fackOut, fun k hk => ?_⟩
  obtain ⟨hlt, -, hbefore⟩ := List.findIdx?_eq_some_iff_getElem.1 (h.pointer.symm.trans hk)
  refine ⟨hlt, fun n hn => ?_⟩
  obtain ⟨j, hj, rfl⟩ := List.mem_take_iff_getElem.1 hn
  have hnot := hbefore j (by omega)
  simpa [isLost] using hnot

theorem Consistent.markLoss (h : s.Consistent ack) (sndNxt : ℤ) :
    ∃ s', s.markLoss (ack + 1) sndNxt = some s' ∧ s'.Consistent ack := by
  obtain ⟨c, hl⟩ := h.linked
  have hwalk : Walk (ack + 1) (ack + 1) c { s with nxtToRetrx := none } [] s.nodes :=
    ⟨rfl, hl, h.sackOut, h.fackOut, rfl⟩
  have hhead : false = true ↔ ∃ prev ∈ ([] : List ScoreBoardNode1).head?, prev.flag = .lost := by
    simp
  obtain ⟨s', hrun, hmarked, -⟩ := hwalk.markLossFrom
    (show s.nodes.length + (if c < sndNxt then 1 else 0) < s.nodes.length + 2 by
      split_ifs <;> omega) hhead
  rw [ScoreBoard1.markLoss, hrun]
  refine ⟨_, rfl, ?_⟩
  dsimp only
  by_cases hempty : s'.nodes = [] ∧ ack + 1 < sndNxt
  · rw [if_pos hempty]
    obtain ⟨hnil, hlt⟩ := hempty
    have hsackOut := hmarked.sackOut
    have hfackOut := hmarked.fackOut
    rw [hnil, packets_nil] at hsackOut hfackOut
    refine ⟨⟨sndNxt, rfl, ?_, ?_⟩, ?_, ?_, ?_⟩
    · change ack + 1 ≤ sndNxt - 1
      omega
    · change sndNxt - 1 + 1 = sndNxt
      omega
    · change s'.sackOut = packets .sacked [ScoreBoardNode1.new (ack + 1) (sndNxt - 1) .lost]
      simp [ScoreBoardNode1.new, hsackOut]
    · change s'.fackOut + _ = packets .lost [ScoreBoardNode1.new (ack + 1) (sndNxt - 1) .lost]
      simp [ScoreBoardNode1.new, hfackOut, getLength_eq, getEnd]
    · intro k hk
      obtain rfl : 0 = k := Option.some.inj hk
      exact ⟨Nat.one_pos, by simp⟩
  · rw [if_neg hempty]
    exact ⟨hmarked.linked, hmarked.sackOut, hmarked.fackOut, hmarked.consistent.pointer⟩

theorem seekLost_eq_some {k j : ℕ} (h : seekLost l k = some (j, n)) :
    k ≤ j ∧ l[j - k]? = some n ∧ n.flag = .lost ∧ ∀ m ∈ l.take (j - k), m.flag ≠ .lost := by
  induction l generalizing k with
  | nil => cases h
  | cons m l ih =>
    rw [seekLost] at h
    split_ifs at h with hlost
    · obtain ⟨rfl, rfl⟩ := Prod.mk.inj (Option.some.inj h)
      simp [hlost]
    · obtain ⟨hle, hget, hn, hbefore⟩ := ih h
      have hsub : j - k = j - (k + 1) + 1 := by omega
      refine ⟨by omega, ?_, hn, ?_⟩
      · rw [hsub, List.getElem?_cons_succ]
        exact hget
      · rw [hsub, List.take_succ_cons]
        exact List.forall_mem_cons.2 ⟨hlost, hbefore⟩

theorem seekLost_eq_none {k : ℕ} (h : seekLost l k = none) : ∀ m ∈ l, m.flag ≠ .lost := by
  induction l generalizing k with
  | nil => simp
  | cons m l ih =>
    rw [seekLost] at h
    split_ifs at h with hlost
    exact List.forall_mem_cons.2 ⟨hlost, ih h⟩

theorem getNextRetran_cases (s : ScoreBoard1) (hpointer : ∀ k ∈ s.nxtToRetrx,
    ∀ n ∈ s.nodes.take k, n.flag ≠ .lost) :
    (∃ k n, s.getNextRetran = (n.seq, { s with nxtToRetrx := some k }) ∧ s.nodes[k]? = some n ∧
      n.flag = .lost ∧ ∀ m ∈ s.nodes.take k, m.flag ≠ .lost) ∨
    s.getNextRetran = (-1, { s with nxtToRetrx := none }) ∧
      (s.nxtToRetrx = none ∨ ∀ m ∈ s.nodes, m.flag ≠ .lost) := by
  rw [getNextRetran]
  cases hptr : s.nxtToRetrx with
  | none => exact Or.inr ⟨rfl, Or.inl rfl⟩
  | some k =>
    have hbefore := hpointer k hptr
    rw [Option.bind_some]
    cases hseek : seekLost (s.nodes.drop k) k with
    | none =>
      refine Or.inr ⟨rfl, Or.inr fun m hm => ?_⟩
      rw [← List.take_append_drop k s.nodes, List.mem_append] at hm
      exact hm.elim (hbefore m) (seekLost_eq_none hseek m)
    | some r =>
      obtain ⟨j, n⟩ := r
      obtain ⟨hle, hget, hlost, hbetween⟩ := seekLost_eq_some hseek
      rw [List.getElem?_drop] at hget
      refine Or.inl ⟨j, n, rfl, by rwa [Nat.add_sub_cancel' hle] at hget, hlost, fun m hm => ?_⟩
      have htake : s.nodes.take j = s.nodes.take k ++ (s.nodes.drop k).take (j - k) := by
        rw [← List.take_add, Nat.add_sub_cancel' hle]
      rw [htake, List.mem_append] at hm
      exact hm.elim (hbefore m) (hbetween m)

theorem Consistent.getNextRetran (h : s.Consistent ack) : s.getNextRetran.2.Consistent ack := by
  rcases s.getNextRetran_cases fun k hk => (h.pointer k hk).2 with
    ⟨k, n, heq, hget, -, hbefore⟩ | ⟨heq, -⟩
  · rw [heq]
    refine ⟨h.linked, h.sackOut, h.fackOut, fun j hj => ?_⟩
    obtain rfl : k = j := Option.some.inj hj
    exact ⟨(List.getElem?_eq_some_iff.1 hget).1, hbefore⟩
  · rw [heq]
    exact ⟨h.linked, h.sackOut, h.fackOut, by simp⟩

theorem markRetran_node (hn : n.flag = .lost) (hne : n.seq ≤ n.getEnd) (sndNxt retransId : ℤ) :
    Linked n.seq (n.markRetran sndNxt retransId) (n.getEnd + 1) ∧
      packets .sacked (n.markRetran sndNxt retransId) = 0 ∧
      packets .lost (n.markRetran sndNxt retransId) = n.getLength - 1 := by
  have hend : n.getEnd = n.nxt := if_neg (by simp [hn])
  have hlen := n.getLength_eq
  rw [ScoreBoardNode1.markRetran]
  by_cases hmore : n.nxt > n.seq
  · rw [if_pos hmore]
    have hend' : (n.split (n.seq + 1)).2.getEnd = n.getEnd := split_snd_getEnd (by simp [hn])
    have hlen' := (n.split (n.seq + 1)).2.getLength_eq
    have hseq : (n.split (n.seq + 1)).2.seq = n.seq + 1 := rfl
    have hflag : (n.split (n.seq + 1)).2.flag = .lost := hn
    refine ⟨⟨rfl, le_rfl, hseq, ?_, ?_⟩, ?_, ?_⟩
    · rw [hend']
      change n.seq + 1 ≤ n.getEnd
      omega
    · rw [hend']
      rfl
    · simp [hflag]
    · simp [hflag]
      omega
  · rw [if_neg hmore]
    have hone : n.getEnd = n.seq := by omega
    refine ⟨⟨rfl, le_rfl, ?_⟩, by simp, ?_⟩
    · rw [hone]
      rfl
    · simp
      omega

theorem Consistent.markRetran (h : s.Consistent ack) (hseqno : s.getNextRetran.1 ≠ -1)
    (sndNxt : ℤ) :
    ∃ s', s.getNextRetran.2.markRetran s.getNextRetran.1 sndNxt = some s' ∧
      s'.Consistent ack := by
  rcases s.getNextRetran_cases fun k hk => (h.pointer k hk).2 with
    ⟨k, n, heq, hget, hlost, hbefore⟩ | ⟨heq, -⟩
  · rw [heq]
    obtain ⟨c, hl⟩ := h.linked
    obtain ⟨hk, hn⟩ := List.getElem?_eq_some_iff.1 hget
    have hsplit : s.nodes = s.nodes.take k ++ n :: s.nodes.drop (k + 1) := by
      rw [← hn, ← List.drop_eq_getElem_cons hk, List.take_append_drop]
    have hsackOut := h.sackOut
    have hfackOut := h.fackOut
    rw [hsplit] at hl hsackOut hfackOut
    rw [packets_append, packets_cons] at hsackOut hfackOut
    rw [if_pos hlost] at hfackOut
    rw [if_neg (by simp [hlost])] at hsackOut
    obtain ⟨b, htake, hseq, hne, hdrop⟩ := linked_append.1 hl
    have hlen := n.getLength_eq
    have hpos := htake.packets_nonneg .lost
    have hpos' := hdrop.packets_nonneg .lost
    obtain ⟨hmarked, hsacked', hlost'⟩ := markRetran_node hlost (hseq.trans_le hne) sndNxt s.rtxId
    have hinside : n.inside n.seq = true := inside_iff.2 ⟨le_rfl, hseq.trans_le hne⟩
    set nodes := s.nodes.take k ++ n.markRetran sndNxt s.rtxId ++ s.nodes.drop (k + 1) with hnodes
    refine ⟨{ s with
      nxtToRetrx := some k
      fackOut := s.fackOut - 1
      nodes := nodes
      rtxId := s.rtxId + 1
      lastRtxSeq := n.seq }, ?_, ⟨c, ?_⟩, ?_, ?_, ?_⟩
    · rw [ScoreBoard1.markRetran, Option.bind_some, hget, Option.bind_some,
        if_pos ⟨hinside, by dsimp only; omega⟩]
    · rw [hnodes, linked_append]
      refine ⟨n.getEnd + 1, linked_append.2 ⟨b, htake, ?_⟩, hdrop⟩
      rw [← hseq]
      exact hmarked
    · rw [hnodes, packets_append, packets_append, hsacked']
      dsimp only
      omega
    · rw [hnodes, packets_append, packets_append, hlost']
      dsimp only
      omega
    · intro j hj
      obtain rfl : k = j := Option.some.inj hj
      have hlen : (s.nodes.take k).length = k := List.length_take_of_le hk.le
      have htake : nodes.take k = s.nodes.take k := by
        rw [hnodes, List.append_assoc, List.take_append_of_le_length hlen.ge, List.take_take,
          min_self]
      constructor
      · dsimp only
        rw [hnodes, List.append_assoc, List.length_append, hlen, List.length_append,
          ScoreBoardNode1.markRetran, List.length_cons]
        omega
      · rwa [htake]
  · exact absurd (congrArg Prod.fst heq) hseqno

end Ns2.ScoreBoard1
