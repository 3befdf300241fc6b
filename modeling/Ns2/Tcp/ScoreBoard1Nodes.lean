import Mathlib.Algebra.Order.BigOperators.Group.List
import Mathlib.Algebra.Order.Ring.Int
import Ns2.Tcp.ScoreBoard1

/-! Queues of consecutive nodes of a `ScoreBoard1`, and what one node becomes when the traversal
visits it. -/

namespace Ns2

namespace ScoreBoardNode1

variable {n m now part : ScoreBoardNode1} {l l₁ l₂ cut : List ScoreBoardNode1} {a b c : ℤ}
  {f : SkbFlag}

theorem getLength_eq (n : ScoreBoardNode1) : n.getLength = n.getEnd + 1 - n.seq := by
  rw [getLength, getEnd]
  split_ifs <;> omega

@[simp] theorem setFlag_flag : (n.setFlag f).flag = f := rfl

@[simp] theorem setFlag_seq : (n.setFlag f).seq = n.seq := rfl

theorem setFlag_getEnd (hf : f ≠ .retransmitted) : (n.setFlag f).getEnd = n.getEnd := by
  rw [getEnd, setFlag_flag, if_neg hf]
  rfl

theorem setFlag_self (hn : n.flag ≠ .retransmitted) : n.setFlag n.flag = n := by
  rw [setFlag, if_neg hn]

theorem split_fst_getEnd (hn : n.flag ≠ .retransmitted) : (n.split c).1.getEnd = c - 1 := if_neg hn

theorem split_snd_getEnd (hn : n.flag ≠ .retransmitted) : (n.split c).2.getEnd = n.getEnd := by
  rw [getEnd, getEnd, if_neg hn]
  exact if_neg hn

theorem mergable_iff : n.mergable m = true ↔ m.flag ≠ .retransmitted ∧ m.flag = n.flag := by
  simp [mergable]

theorem merge_getEnd (h : n.mergable m = true) : (n.merge m).getEnd = m.getEnd := by
  obtain ⟨hm, heq⟩ := mergable_iff.1 h
  rw [getEnd, getEnd, if_neg hm]
  exact if_neg (heq ▸ hm)

theorem inside_iff : n.inside a = true ↔ n.seq ≤ a ∧ a ≤ n.getEnd := by
  rw [inside, getEnd]
  split_ifs
  · rw [decide_eq_true_iff]
    omega
  · rw [decide_eq_true_iff]

/-- The nodes are not empty and follow each other, from `a` up to `c`. -/
def Linked : ℤ → List ScoreBoardNode1 → ℤ → Prop
  | a, [], c => a = c
  | a, n :: l, c => n.seq = a ∧ a ≤ n.getEnd ∧ Linked (n.getEnd + 1) l c

@[simp] theorem linked_nil : Linked a [] c ↔ a = c := Iff.rfl

@[simp] theorem linked_cons :
    Linked a (n :: l) c ↔ n.seq = a ∧ a ≤ n.getEnd ∧ Linked (n.getEnd + 1) l c := Iff.rfl

@[simp] theorem linked_append :
    Linked a (l₁ ++ l₂) c ↔ ∃ b, Linked a l₁ b ∧ Linked b l₂ c := by
  induction l₁ generalizing a with
  | nil => simp
  | cons n l₁ ih =>
    simp only [List.cons_append, linked_cons, ih]
    constructor
    · rintro ⟨hseq, hle, b, h₁, h₂⟩
      exact ⟨b, ⟨hseq, hle, h₁⟩, h₂⟩
    · rintro ⟨b, ⟨hseq, hle, h₁⟩, h₂⟩
      exact ⟨hseq, hle, b, h₁, h₂⟩

theorem Linked.le (h : Linked a l c) : a ≤ c := by
  induction l generalizing a with
  | nil => exact h.le
  | cons n l ih =>
    have := ih h.2.2
    have := h.2.1
    omega

theorem Linked.bounds (h : Linked a l c) (hn : n ∈ l) :
    a ≤ n.seq ∧ n.seq ≤ n.getEnd ∧ n.getEnd < c := by
  induction l generalizing a with
  | nil => cases hn
  | cons m l ih =>
    obtain ⟨hseq, hle, hrest⟩ := h
    rcases List.mem_cons.1 hn with rfl | hn
    · have := hrest.le
      omega
    · have := ih hrest hn
      omega

/-- The number of packets in the nodes with a flag. -/
def packets (f : SkbFlag) (l : List ScoreBoardNode1) : ℤ :=
  (l.map fun n => if n.flag = f then n.getLength else 0).sum

@[simp] theorem packets_nil : packets f [] = 0 := rfl

@[simp] theorem packets_cons :
    packets f (n :: l) = (if n.flag = f then n.getLength else 0) + packets f l := by
  simp [packets]

@[simp] theorem packets_append : packets f (l₁ ++ l₂) = packets f l₁ + packets f l₂ := by
  simp [packets]

@[simp] theorem packets_reverse : packets f l.reverse = packets f l := by
  simp [packets, List.sum_reverse]

theorem Linked.packets_nonneg (h : Linked a l c) (f : SkbFlag) : 0 ≤ packets f l := by
  apply List.sum_nonneg
  rw [List.forall_mem_map]
  intro n hn
  have := h.bounds hn
  have := n.getLength_eq
  split_ifs <;> omega

/-- `now` has been cut into `part`, with its first packet, and what follows. -/
structure Cut (now part : ScoreBoardNode1) (cut : List ScoreBoardNode1) : Prop where
  flag : part.flag = now.flag
  seq : part.seq = now.seq
  nonempty : part.seq ≤ part.getEnd
  linked : Linked (part.getEnd + 1) cut (now.getEnd + 1)
  flags : ∀ m ∈ cut, m.flag = now.flag
  whole : now.flag = .retransmitted → part = now ∧ cut = []

theorem Cut.refl (h : now.seq ≤ now.getEnd) : Cut now now [] :=
  ⟨rfl, rfl, h, rfl, by simp, fun _ => ⟨rfl, rfl⟩⟩

theorem Cut.split (h : Cut now part cut) (hlow : now.seq < c) (hhigh : c ≤ part.getEnd) :
    Cut now (part.split c).1 ((part.split c).2 :: cut) ∧ (part.split c).1.getEnd = c - 1 := by
  have hflag : now.flag ≠ .retransmitted := by
    intro hretran
    obtain ⟨rfl, -⟩ := h.whole hretran
    rw [getEnd, if_pos hretran] at hhigh
    omega
  have hpart : part.flag ≠ .retransmitted := h.flag ▸ hflag
  have hend := split_fst_getEnd (c := c) hpart
  have hend' := split_snd_getEnd (c := c) hpart
  have hseq : (part.split c).1.seq = now.seq := h.seq
  refine ⟨⟨h.flag, hseq, by omega, ?_, ?_, fun hretran => absurd hretran hflag⟩, hend⟩
  · rw [linked_cons, hend, hend']
    refine ⟨?_, by omega, h.linked⟩
    change c = _
    omega
  · exact List.forall_mem_cons.2 ⟨h.flag, h.flags⟩

theorem Cut.replace (h : Cut now part cut) {new : ScoreBoardNode1} (hseq : new.seq = part.seq)
    (hend : new.getEnd = part.getEnd) (hl : Linked a (now :: l) c) :
    Linked a (new :: (cut ++ l)) c := by
  obtain ⟨hnow, -, hrest⟩ := hl
  have := h.nonempty
  have := h.seq
  rw [linked_cons, linked_append]
  exact ⟨by omega, by omega, now.getEnd + 1, hend ▸ h.linked, hrest⟩

theorem Cut.packets (h : Cut now part cut) (f : SkbFlag) :
    ScoreBoardNode1.packets f [now] = ScoreBoardNode1.packets f [part] +
      ScoreBoardNode1.packets f cut := by
  have hcut : ∀ {l : List ScoreBoardNode1} {a c : ℤ}, Linked a l c → (∀ m ∈ l, m.flag = now.flag) →
      ScoreBoardNode1.packets f l = if now.flag = f then c - a else 0 := by
    intro l
    induction l with
    | nil =>
      intro a c hl _
      obtain rfl : a = c := hl
      simp
    | cons m l ih =>
      intro a c hl hflags
      rw [List.forall_mem_cons] at hflags
      have := hl.1
      rw [packets_cons, ih hl.2.2 hflags.2, hflags.1, getLength_eq]
      split_ifs <;> omega
  have := h.seq
  rw [hcut h.linked h.flags, packets_cons, packets_cons, packets_nil, h.flag, getLength_eq,
    getLength_eq]
  split_ifs <;> omega

end ScoreBoardNode1

namespace ScoreBoard1

open ScoreBoardNode1

/-- A retransmission counts as lost again. -/
def LostAgain (fack ackedRtxId dupackThreshold : ℤ) (n : ScoreBoardNode1) : Prop :=
  n.nxt ≤ fack ∨ n.retran + dupackThreshold + 1 < ackedRtxId

/-- What a node that is not SACKED becomes, by the blocks `sacks` that end behind its start. -/
inductive Fate (dupackThreshold : ℤ) (k : Pass) (sacks : List (ℤ × ℤ)) (part : ScoreBoardNode1) :
    ScoreBoardNode1 → Bool → Prop
  | sacked {b : ℤ × ℤ} (hb : b ∈ sacks.head?) (hleft : b.1 ≤ part.seq) (hright : part.getEnd < b.2) :
      Fate dupackThreshold k sacks part (part.setFlag .sacked)
        (k.thorough || decide (part.flag = .retransmitted))
  | lost (hahead : ∀ b ∈ sacks.head?, part.getEnd < b.1)
      (hlost : part.flag = .lost ∨
        part.flag = .inflight ∧ part.getEnd ≤ k.board.fack - (dupackThreshold + 1) ∨
        part.flag = .retransmitted ∧
          LostAgain k.board.fack k.board.ackedRtxId dupackThreshold part) :
      Fate dupackThreshold k sacks part (part.setFlag .lost) k.thorough
  | kept (hahead : ∀ b ∈ sacks.head?, part.getEnd < b.1)
      (hkept : part.flag = .inflight ∧ k.board.fack - (dupackThreshold + 1) < part.seq ∨
        part.flag = .retransmitted ∧
          ¬LostAgain k.board.fack k.board.ackedRtxId dupackThreshold part) :
      Fate dupackThreshold k sacks part part k.thorough

/-- A visit has put `new :: cut` in the place of `now`. -/
structure Visited (dupackThreshold : ℤ) (k : Pass) (now : ScoreBoardNode1)
    (rest : List ScoreBoardNode1) (part new : ScoreBoardNode1) (cut : List ScoreBoardNode1)
    (k' : Pass) : Prop where
  parts : Cut now part cut
  todo : k'.todo = new :: (cut ++ rest)
  done : k'.done = k.done
  sacks : k'.sacks = k.sacks.dropWhile fun b => decide (b.2 ≤ now.seq)
  fate : Fate dupackThreshold k k'.sacks part new k'.thorough
  fack : k'.board.fack = k.board.fack
  ackedRtxId : k'.thorough = false → k'.board.ackedRtxId = k.board.ackedRtxId
  sackOut : k'.board.sackOut = k.board.sackOut + packets .sacked [new]
  fackOut : k'.board.fackOut = k.board.fackOut + packets .lost [new] - packets .lost [part]
  pointer : k'.board.nxtToRetrx =
    if new.flag = .lost ∧ k.board.nxtToRetrx = none then some k.done.length else k.board.nxtToRetrx

variable {k k' : Pass} {now part new : ScoreBoardNode1} {rest cut : List ScoreBoardNode1}
  {dupackThreshold : ℤ} {l : List (ℤ × ℤ)}

theorem Pass.setSacked_visited {b : ℤ × ℤ} (hparts : Cut now part cut)
    (hb : b ∈ (k.sacks.dropWhile fun b => decide (b.2 ≤ now.seq)).head?) (hleft : b.1 ≤ now.seq)
    (hright : part.getEnd < b.2) (rest : List ScoreBoardNode1) (dupackThreshold : ℤ) :
    Visited dupackThreshold k now rest part (part.setFlag .sacked) cut
      ({ k with sacks := k.sacks.dropWhile fun b => decide (b.2 ≤ now.seq) }.setSacked part
        (cut ++ rest)) := by
  have hfate : Fate dupackThreshold k _ part _ _ := Fate.sacked hb (hparts.seq ▸ hleft) hright
  have hlen : (part.setFlag .sacked).getLength = part.getLength := by
    rw [getLength_eq, getLength_eq, setFlag_getEnd (by decide), setFlag_seq]
  rcases hflag : part.flag with _ | _ | _ | _ <;>
    refine ⟨hparts, ?_, ?_, ?_, ?_, ?_, ?_, ?_, ?_, ?_⟩ <;>
    simp [setSacked, hflag, hlen] <;> simp_all

/-- Either the first block that is left reaches the start of `now`, or `now` ends before it. -/
theorem Pass.matchSack_cases (k : Pass) (hne : now.seq ≤ now.getEnd)
    (rest : List ScoreBoardNode1) (dupackThreshold : ℤ) :
    (∃ part cut, ∃ b ∈ (k.matchSack now rest).sacks.head?, b.1 ≤ now.seq ∧
      Visited dupackThreshold k now rest part (part.setFlag .sacked) cut (k.matchSack now rest)) ∨
    ∃ part cut, Cut now part cut ∧ k.matchSack now rest = { k with
        sacks := k.sacks.dropWhile fun b => decide (b.2 ≤ now.seq)
        todo := part :: (cut ++ rest) } ∧
      ∀ b ∈ (k.sacks.dropWhile fun b => decide (b.2 ≤ now.seq)).head?, part.getEnd < b.1 := by
  have hrefl := Cut.refl hne
  cases hsacks : k.sacks.dropWhile fun b => decide (b.2 ≤ now.seq) with
  | nil =>
    right
    refine ⟨now, [], hrefl, ?_, by simp⟩
    simp [matchSack, hsacks]
  | cons b sacks =>
    have hhead : b ∈ (k.sacks.dropWhile fun b => decide (b.2 ≤ now.seq)).head? := by simp [hsacks]
    have hbehind : now.seq < b.2 := by
      have := List.head?_dropWhile_not (fun b : ℤ × ℤ => decide (b.2 ≤ now.seq)) k.sacks
      simpa [hsacks] using this
    by_cases hreach : b.1 ≤ now.getEnd
    · by_cases hleft : b.1 > now.seq
      · right
        obtain ⟨hparts, hend⟩ := hrefl.split hleft hreach
        refine ⟨_, _, hparts, ?_, ?_⟩
        · simp [matchSack, hsacks, hreach, hleft]
        · rintro b' hb'
          obtain rfl : b = b' := by simpa using hb'
          omega
      · left
        rw [gt_iff_lt, not_lt] at hleft
        obtain ⟨part, cut, hparts, hright, heq⟩ : ∃ part cut, Cut now part cut ∧
            part.getEnd < b.2 ∧ k.matchSack now rest =
              { k with sacks := k.sacks.dropWhile fun b => decide (b.2 ≤ now.seq) }.setSacked part
                (cut ++ rest) := by
          by_cases hright : b.2 ≤ now.getEnd
          · obtain ⟨hparts, hend⟩ := hrefl.split hbehind hright
            refine ⟨_, _, hparts, by omega, ?_⟩
            simp [matchSack, hsacks, hreach, hleft, hright]
          · refine ⟨now, [], hrefl, not_le.1 hright, ?_⟩
            simp [matchSack, hsacks, hreach, hleft, hright]
        have hvisited := setSacked_visited hparts hhead hleft hright rest dupackThreshold
        rw [← heq] at hvisited
        refine ⟨part, cut, b, ?_, hleft, hvisited⟩
        rw [hvisited.sacks]
        exact hhead
    · right
      refine ⟨now, [], hrefl, ?_, ?_⟩
      · simp [matchSack, hsacks, hreach]
      · rintro b' hb'
        obtain rfl : b = b' := by simpa using hb'
        exact not_le.1 hreach

theorem Pass.setLost_visited (hparts : Cut now part cut) (pktNum : ℤ) (l : List (ℤ × ℤ))
    (hl : l = k.sacks.dropWhile fun b => decide (b.2 ≤ now.seq))
    (hcount : pktNum = packets .lost [part.setFlag .lost] - packets .lost [part])
    (hfate : Fate dupackThreshold k l part (part.setFlag .lost) k.thorough)
    (todo : List ScoreBoardNode1) :
    Visited dupackThreshold k now rest part (part.setFlag .lost) cut
      ({ k with sacks := l, todo := todo }.setLost pktNum part (cut ++ rest)) := by
  subst hl
  by_cases hnone : k.board.nxtToRetrx = none <;>
    refine ⟨hparts, ?_, ?_, ?_, ?_, ?_, ?_, ?_, ?_, ?_⟩ <;>
    simp [setLost, Pass.point, hnone, hfate, hcount]
  all_goals omega

theorem Pass.kept_visited (hparts : Cut now part cut) (hnot : part.flag ≠ .sacked)
    (hl : l = k.sacks.dropWhile fun b => decide (b.2 ≤ now.seq))
    (hfate : Fate dupackThreshold k l part part k.thorough) (rest : List ScoreBoardNode1) :
    Visited dupackThreshold k now rest part part cut
      { k with
        sacks := l
        todo := part :: (cut ++ rest)
        board := { k.board with
          nxtToRetrx :=
            if part.flag = .lost ∧ k.board.nxtToRetrx = none then some k.done.length
            else k.board.nxtToRetrx } } :=
  ⟨hparts, rfl, rfl, hl, hfate, rfl, fun _ => rfl, by simp [hnot], by simp, rfl⟩

theorem Pass.visit (k : Pass) (hne : now.seq ≤ now.getEnd) (hflag : now.flag ≠ .sacked)
    (rest : List ScoreBoardNode1) (dupackThreshold : ℤ) :
    ∃ part new cut, Visited dupackThreshold k now rest part new cut
      ((k.matchSack now rest).checkLoss dupackThreshold) := by
  rcases k.matchSack_cases hne rest dupackThreshold with ⟨part, cut, b, hb, hleft, hvisited⟩ |
      ⟨part, cut, hparts, heq, hahead⟩
  · have hend : (part.setFlag .sacked).getEnd = part.getEnd := setFlag_getEnd (by decide)
    have hreached : ¬b.1 > (part.setFlag .sacked).getEnd := by
      have := hvisited.parts.nonempty
      have := hvisited.parts.seq
      omega
    refine ⟨part, part.setFlag .sacked, cut, ?_⟩
    rw [checkLoss, hvisited.todo]
    dsimp only
    rw [Option.mem_def.1 hb]
    simpa [hreached] using hvisited
  · set l := k.sacks.dropWhile fun b => decide (b.2 ≤ now.seq) with hl
    have hcond : (l.head?.all fun b => decide (b.1 > part.getEnd)) = true := by
      rw [Option.all_eq_true]
      exact fun b hb => decide_eq_true (hahead b hb)
    have hlen := part.getLength_eq
    have hend : (part.setFlag .lost).getEnd = part.getEnd := setFlag_getEnd (by decide)
    have hlen' := (part.setFlag .lost).getLength_eq
    rw [heq, checkLoss]
    dsimp only
    rw [if_pos hcond]
    rcases hpart : part.flag with _ | _ | _ | _
    · dsimp only
      by_cases hlow : part.seq ≤ k.board.fack - (dupackThreshold + 1)
      · rw [if_pos hlow]
        by_cases hcut : k.board.fack - (dupackThreshold + 1) < part.getEnd
        · rw [if_pos hcut]
          obtain ⟨hparts', hend'⟩ := hparts.split
            (show now.seq < k.board.fack - (dupackThreshold + 1) + 1 by have := hparts.seq; omega) hcut
          refine ⟨_, _, _, setLost_visited hparts' _ l hl ?_ ?_ _⟩
          · have hflag' := hparts'.flag.trans (hparts.flag.symm.trans hpart)
            simp [hflag', getLength_eq, setFlag_getEnd]
          · exact Fate.lost (fun b hb => by have := hahead b hb; omega)
              (Or.inr (Or.inl ⟨hparts'.flag.trans (hparts.flag.symm.trans hpart), by omega⟩))
        · rw [if_neg hcut]
          refine ⟨part, part.setFlag .lost, cut, setLost_visited hparts _ l hl ?_ ?_ _⟩
          · simp [hpart, hlen, hlen', hend]
          · exact Fate.lost hahead (Or.inr (Or.inl ⟨hpart, not_lt.1 hcut⟩))
      · rw [if_neg hlow]
        have hfate : Fate dupackThreshold k l part part k.thorough :=
          Fate.kept hahead (Or.inl ⟨hpart, not_le.1 hlow⟩)
        have hkept := kept_visited hparts (by simp [hpart]) hl hfate rest
        refine ⟨part, part, cut, ?_⟩
        simpa [hpart] using hkept
    · exact absurd (hparts.flag.symm.trans hpart) hflag
    · have hself : part.setFlag .lost = part := by
        rw [← hpart]
        exact setFlag_self (by simp [hpart])
      have hfate : Fate dupackThreshold k l part part k.thorough := by
        have hlost : Fate dupackThreshold k l part _ k.thorough := Fate.lost hahead (Or.inl hpart)
        rwa [hself] at hlost
      refine ⟨part, part, cut, ?_⟩
      have hkept := kept_visited hparts (by simp [hpart]) hl hfate rest
      by_cases hnone : k.board.nxtToRetrx = none <;> simpa [Pass.point, hpart, hnone] using hkept
    · dsimp only
      by_cases hagain : LostAgain k.board.fack k.board.ackedRtxId dupackThreshold part
      · rw [if_pos (by exact hagain)]
        refine ⟨part, part.setFlag .lost, cut, setLost_visited hparts _ l hl ?_ ?_ _⟩
        · have hseq : part.getEnd = part.seq := if_pos hpart
          simp [hpart, hlen', hend, hseq]
        · exact Fate.lost hahead (Or.inr (Or.inr ⟨hpart, hagain⟩))
      · rw [if_neg (by exact hagain)]
        have hfate : Fate dupackThreshold k l part part k.thorough :=
          Fate.kept hahead (Or.inr ⟨hpart, hagain⟩)
        have hkept := kept_visited hparts (by simp [hpart]) hl hfate rest
        refine ⟨part, part, cut, ?_⟩
        simpa [hpart] using hkept

end ScoreBoard1

end Ns2
