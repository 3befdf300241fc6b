import Ns2.Tcp.ScoreBoard1Nodes

/-! The traversal of `UpdateScoreBoard`: what one round does, what every round keeps, and that the
rounds come to an end. -/

namespace Ns2.ScoreBoard1

open ScoreBoardNode1 List

variable {k k' mid : Pass} {s s' : ScoreBoard1} {now part new prev n : ScoreBoardNode1}
  {rest cut l done done' : List ScoreBoardNode1} {dupackThreshold a q c : ℤ}

/-- Whether the node counts for `nxt_to_retrx_`. -/
def isLost (n : ScoreBoardNode1) : Bool := decide (n.flag = .lost)

/-- In the middle of a loop over the queue: it is linked from `a` on, `q` is the first packet that
has not been visited, the counters are right, and the pointer is on the first LOST node visited. -/
structure Walk (a q c : ℤ) (s : ScoreBoard1) (done todo : List ScoreBoardNode1) : Prop where
  visited : Linked a done.reverse q
  ahead : Linked q todo c
  sackOut : s.sackOut = packets .sacked (done ++ todo)
  fackOut : s.fackOut = packets .lost (done ++ todo)
  pointer : s.nxtToRetrx = done.reverse.findIdx? isLost

abbrev Pass.Sound (a q c : ℤ) (k : Pass) : Prop := Walk a q c k.board k.done k.todo

/-- The node before has taken up the new one, or the new one follows it. -/
inductive Joins (new : ScoreBoardNode1) : List ScoreBoardNode1 → List ScoreBoardNode1 → Prop
  | push {l : List ScoreBoardNode1} : Joins new l (new :: l)
  | merge {n : ScoreBoardNode1} {l : List ScoreBoardNode1} (h : n.mergable new = true) :
      Joins new (n :: l) (n.merge new :: l)

/-- One round has visited `part` of `now`. -/
structure Stepped (dupackThreshold : ℤ) (k : Pass) (now : ScoreBoardNode1)
    (rest : List ScoreBoardNode1) (part new : ScoreBoardNode1) (cut : List ScoreBoardNode1)
    (k' : Pass) : Prop where
  parts : Cut now part cut
  fate : now.flag = .sacked ∧ part = now ∧ new = now ∧ cut = [] ∧ k'.sacks = k.sacks ∧
      k'.thorough = k.thorough ∨
    now.flag ≠ .sacked ∧ (k'.sacks = k.sacks.dropWhile fun b => decide (b.2 ≤ now.seq)) ∧
      Fate dupackThreshold k k'.sacks part new k'.thorough
  todo : k'.todo =
    if cut ++ rest = [] ∧ new.getEnd < k.board.fack then
      [ScoreBoardNode1.new (new.getEnd + 1) k.board.fack .inflight]
    else cut ++ rest
  done : Joins new k.done k'.done
  fack : k'.board.fack = k.board.fack
  ackedRtxId : k'.thorough = false → k'.board.ackedRtxId = k.board.ackedRtxId

theorem Fate.same {sacks : List (ℤ × ℤ)} {thorough : Bool}
    (h : Fate dupackThreshold k sacks part new thorough) :
    new.seq = part.seq ∧ new.getEnd = part.getEnd ∧
      (new.flag = .retransmitted → part.flag = .retransmitted) := by
  cases h with
  | sacked => exact ⟨rfl, setFlag_getEnd (by decide), by simp⟩
  | lost => exact ⟨rfl, setFlag_getEnd (by decide), by simp⟩
  | kept => exact ⟨rfl, rfl, id⟩

section

variable (h : Joins new done done')
include h

theorem Joins.lost :
    (∃ n ∈ done', n.flag = .lost) ↔ new.flag = .lost ∨ ∃ n ∈ done, n.flag = .lost := by
  cases h with
  | push => simp
  | merge hm =>
    have hflag := (mergable_iff.1 hm).2
    simp only [mem_cons, exists_eq_or_imp]
    rw [hflag]
    tauto

theorem Joins.linked (hdone : Linked a done.reverse q) (hseq : new.seq = q) (hle : q ≤ new.getEnd) :
    Linked a done'.reverse (new.getEnd + 1) := by
  cases h with
  | push =>
    rw [reverse_cons, linked_append]
    exact ⟨q, hdone, hseq, hle, rfl⟩
  | merge hm =>
    have hend := merge_getEnd hm
    have hflag := mergable_iff.1 hm
    rw [reverse_cons, linked_append] at hdone ⊢
    obtain ⟨b, hl, hprev⟩ := hdone
    obtain ⟨hprev, hle', heq⟩ := hprev
    obtain rfl : _ = q := heq
    refine ⟨b, hl, hprev, ?_, ?_⟩
    · rw [hend]
      omega
    · rw [hend]
      exact rfl

theorem Joins.packets (hdone : Linked a done.reverse q) (hseq : new.seq = q) (f : SkbFlag) :
    packets f done' = packets f [new] + packets f done := by
  cases h with
  | push => simp
  | @merge prev done hm =>
    have hend := merge_getEnd hm
    have hflag := (mergable_iff.1 hm).2
    rw [reverse_cons, linked_append] at hdone
    obtain ⟨b, -, -, -, heq⟩ := hdone
    have heq : prev.getEnd + 1 = q := heq
    have hlen := prev.getLength_eq
    have hlen' := (prev.merge new).getLength_eq
    have hlen'' := new.getLength_eq
    have hseq' : (prev.merge new).seq = prev.seq := rfl
    have hflag' : (prev.merge new).flag = prev.flag := rfl
    simp only [packets_cons, packets_nil, hflag, hflag']
    split_ifs <;> omega

theorem Joins.pointer : (new :: done).reverse.findIdx? isLost = done'.reverse.findIdx? isLost := by
  cases h with
  | push => rfl
  | @merge prev done hm =>
    have hflag : isLost new = isLost prev := by rw [isLost, (mergable_iff.1 hm).2, isLost]
    have hflag' : isLost (prev.merge new) = isLost prev := rfl
    simp only [reverse_cons, append_assoc, singleton_append, findIdx?_append,
      findIdx?_cons, findIdx?_nil, hflag, hflag']
    split_ifs <;> simp

end

theorem Pass.link_joins (htodo : mid.todo = new :: l)
    (hpointer : mid.board.nxtToRetrx = (new :: mid.done).reverse.findIdx? isLost) :
    ∃ done', Joins new mid.done done' ∧ mid.link = some { mid with
      done := done'
      todo :=
        if l = [] ∧ new.getEnd < mid.board.fack then
          [ScoreBoardNode1.new (new.getEnd + 1) mid.board.fack .inflight]
        else l } := by
  rw [link, htodo]
  cases hdone : mid.done with
  | nil => exact ⟨[new], Joins.push, rfl⟩
  | cons prev done =>
    by_cases hm : prev.mergable new = true
    · have hvalid : mid.board.nxtToRetrx ≠ some (prev :: done).length := by
        rw [hpointer, hdone]
        intro heq
        obtain ⟨hlt, hlost, hbefore⟩ := findIdx?_eq_some_iff_getElem.1 heq
        have hprev := hbefore done.length (by simp)
        have hflag : isLost new = isLost prev := by rw [isLost, (mergable_iff.1 hm).2, isLost]
        simp [hflag] at hlost hprev
        rw [hprev] at hlost
        cases hlost
      refine ⟨prev.merge new :: done, Joins.merge hm, ?_⟩
      simp only [hm, if_true, if_neg hvalid, Option.map_some, merge_getEnd hm]
    · refine ⟨new :: prev :: done, Joins.push, ?_⟩
      simp only [if_neg hm, Option.map_some]

theorem Walk.advance (h : Walk a q c s done (now :: rest)) (hparts : Cut now part cut)
    (hseq : new.seq = part.seq) (hend : new.getEnd = part.getEnd) (hjoins : Joins new done done')
    (hsackOut : s'.sackOut = s.sackOut + packets .sacked [new] - packets .sacked [part])
    (hfackOut : s'.fackOut = s.fackOut + packets .lost [new] - packets .lost [part])
    (hpointer : s'.nxtToRetrx = (new :: done).reverse.findIdx? isLost) :
    Walk a (part.getEnd + 1) c s' done' (cut ++ rest) := by
  have hpart := hparts.nonempty
  have hpseq := hparts.seq
  have hnseq := h.ahead.1
  obtain ⟨-, -, hrest⟩ := hparts.replace hseq hend h.ahead
  have hcount : ∀ f, packets f (done ++ now :: rest) + packets f [new] - packets f [part] =
      packets f (done' ++ (cut ++ rest)) := by
    intro f
    have hcut := hparts.packets f
    have hdone' := hjoins.packets h.visited (by omega) f
    rw [packets_append, ← singleton_append (l := rest), packets_append, packets_append,
      packets_append]
    omega
  refine ⟨?_, hend ▸ hrest, ?_, ?_, ?_⟩
  · rw [← hend]
    exact hjoins.linked h.visited (by omega) (by omega)
  · rw [hsackOut, h.sackOut, hcount]
  · rw [hfackOut, h.fackOut, hcount]
  · rw [hpointer, hjoins.pointer]

theorem Walk.append (h : Walk a q c s done []) {x : ℤ} (hx : q ≤ x) :
    Walk a q (x + 1) s done [ScoreBoardNode1.new q x .inflight] := by
  refine ⟨h.visited, ⟨rfl, hx, rfl⟩, ?_, ?_, h.pointer⟩
  · rw [h.sackOut]
    simp [ScoreBoardNode1.new]
  · rw [h.fackOut]
    simp [ScoreBoardNode1.new]

theorem Pass.Sound.link (h : k.Sound a q c) (htodo : k.todo = now :: rest)
    (hparts : Cut now part cut) (hseq : new.seq = part.seq) (hend : new.getEnd = part.getEnd)
    (htodo' : mid.todo = new :: (cut ++ rest)) (hdone : mid.done = k.done)
    (hfack : mid.board.fack = k.board.fack)
    (hsackOut : mid.board.sackOut =
      k.board.sackOut + packets .sacked [new] - packets .sacked [part])
    (hfackOut : mid.board.fackOut = k.board.fackOut + packets .lost [new] - packets .lost [part])
    (hpointer : mid.board.nxtToRetrx = (new :: k.done).reverse.findIdx? isLost) :
    ∃ k' c', mid.link = some k' ∧ Joins new k.done k'.done ∧
      k'.todo = (if cut ++ rest = [] ∧ new.getEnd < k.board.fack then
        [ScoreBoardNode1.new (new.getEnd + 1) k.board.fack .inflight] else cut ++ rest) ∧
      k'.board = mid.board ∧ k'.sacks = mid.sacks ∧ k'.thorough = mid.thorough ∧
      k'.Sound a (part.getEnd + 1) c' ∧
      max c' (k.board.fack + 1) = max c (k.board.fack + 1) := by
  obtain ⟨done', hjoins, hlink⟩ := link_joins htodo' (hdone ▸ hpointer)
  rw [hdone] at hjoins
  rw [hfack] at hlink
  have hwalk : Walk a q c k.board k.done (now :: rest) := by
    rw [← htodo]
    exact h
  have hnext := hwalk.advance hparts hseq hend hjoins hsackOut hfackOut hpointer
  by_cases hlast : cut ++ rest = [] ∧ new.getEnd < k.board.fack
  · rw [if_pos hlast] at hlink ⊢
    obtain ⟨hnil, hlt⟩ := hlast
    rw [hnil] at hnext
    have hc : part.getEnd + 1 = c := hnext.ahead
    refine ⟨_, k.board.fack + 1, hlink, hjoins, rfl, rfl, rfl, rfl, ?_, by omega⟩
    rw [hend]
    exact hnext.append (by omega)
  · rw [if_neg hlast] at hlink ⊢
    exact ⟨_, c, hlink, hjoins, rfl, rfl, rfl, rfl, hnext, rfl⟩

theorem Pass.Sound.step (h : k.Sound a q c) (htodo : k.todo = now :: rest)
    (dupackThreshold : ℤ) :
    ∃ part new cut k' c', k.step dupackThreshold = some k' ∧
      Stepped dupackThreshold k now rest part new cut k' ∧ k'.Sound a (part.getEnd + 1) c' ∧
      max c' (k.board.fack + 1) = max c (k.board.fack + 1) := by
  have hnow := h.ahead
  rw [htodo] at hnow
  have hne : now.seq ≤ now.getEnd := by
    have := hnow.1
    have := hnow.2.1
    omega
  by_cases hflag : now.flag = .sacked
  · have hpointer : k.board.nxtToRetrx = (now :: k.done).reverse.findIdx? isLost := by
      rw [h.pointer]
      simp [findIdx?_append, isLost, hflag]
    obtain ⟨k', c', hlink, hjoins, htodo', hboard, hsacks, hthorough, h', hmax⟩ :=
      h.link htodo (Cut.refl hne) rfl rfl htodo rfl rfl (by omega) (by omega) hpointer
    refine ⟨now, now, [], k', c', ?_, ⟨Cut.refl hne, ?_, htodo', hjoins, ?_, ?_⟩, h', hmax⟩
    · rw [Pass.step, htodo]
      dsimp only
      rw [if_neg (not_not.2 hflag)]
      exact hlink
    · exact Or.inl ⟨hflag, rfl, rfl, rfl, hsacks, hthorough⟩
    · rw [hboard]
    · intro _
      rw [hboard]
  · obtain ⟨part, new, cut, hvisited⟩ := k.visit hne hflag rest dupackThreshold
    obtain ⟨hseq, hend, -⟩ := hvisited.fate.same
    have hpointer : ((k.matchSack now rest).checkLoss dupackThreshold).board.nxtToRetrx =
        (new :: k.done).reverse.findIdx? isLost := by
      rw [hvisited.pointer, h.pointer, reverse_cons, findIdx?_append]
      cases hfind : k.done.reverse.findIdx? isLost with
      | none => by_cases hlost : new.flag = .lost <;> simp [isLost, hlost]
      | some j => simp
    have hnot : packets .sacked [part] = 0 := by
      have := hvisited.parts.flag
      simp [this, hflag]
    obtain ⟨k', c', hlink, hjoins, htodo', hboard, hsacks, hthorough, h', hmax⟩ :=
      h.link htodo hvisited.parts hseq hend hvisited.todo hvisited.done hvisited.fack
        (by rw [hvisited.sackOut, hnot, sub_zero]) hvisited.fackOut hpointer
    refine ⟨part, new, cut, k', c', ?_, ⟨hvisited.parts, ?_, htodo', hjoins, ?_, ?_⟩, h', hmax⟩
    · rw [Pass.step, htodo]
      dsimp only
      rw [if_pos hflag]
      exact hlink
    · right
      rw [hsacks, hthorough]
      exact ⟨hflag, hvisited.sacks, hvisited.fate⟩
    · rw [hboard, hvisited.fack]
    · intro hnot
      rw [hboard]
      exact hvisited.ackedRtxId (hthorough ▸ hnot)

/-- The rounds of a traversal up to the one that stops it. -/
inductive Rounds (dupackThreshold a : ℤ) : Pass → Pass → Prop
  | stop {k : Pass} (hstops : k.stops = true) : Rounds dupackThreshold a k k
  | round {k k₁ k' : Pass} {q c : ℤ} {now part new : ScoreBoardNode1}
      {rest cut : List ScoreBoardNode1} (hgoes : k.stops = false) (hsound : k.Sound a q c)
      (htodo : k.todo = now :: rest) (hstepped : Stepped dupackThreshold k now rest part new cut k₁)
      (hsound₁ : ∃ c₁, k₁.Sound a (part.getEnd + 1) c₁)
      (hrounds : Rounds dupackThreshold a k₁ k') : Rounds dupackThreshold a k k'

theorem Pass.Sound.traverse {fuel : ℕ} (h : k.Sound a q c)
    (hfuel : (max c (k.board.fack + 1) - q).toNat < fuel) (dupackThreshold : ℤ) :
    ∃ k' q' c', k.traverse dupackThreshold fuel = some k' ∧ k'.Sound a q' c' ∧
      Rounds dupackThreshold a k k' := by
  induction fuel generalizing k q c with
  | zero => cases hfuel
  | succ fuel ih =>
    cases hstops : k.stops with
    | true =>
      refine ⟨k, q, c, ?_, h, Rounds.stop hstops⟩
      rw [Pass.traverse, if_pos hstops]
    | false =>
      have htodo : k.todo ≠ [] := by
        intro hnil
        simp [stops, hnil] at hstops
      obtain ⟨now, rest, htodo⟩ := exists_cons_of_ne_nil htodo
      obtain ⟨part, new, cut, k₁, c₁, hstep, hstepped, h₁, hmax⟩ := h.step htodo dupackThreshold
      have hq : q < part.getEnd + 1 := by
        have := h.ahead
        rw [htodo] at this
        have := this.1
        have := hstepped.parts.seq
        have := hstepped.parts.nonempty
        omega
      have hle := h₁.ahead.le
      obtain ⟨k', q', c', hrun, h', hrounds⟩ := ih h₁ (by rw [hstepped.fack]; omega)
      refine ⟨k', q', c', ?_, h', Rounds.round hstops h htodo hstepped ⟨c₁, h₁⟩ hrounds⟩
      rw [Pass.traverse, if_neg (by simp [hstops]), hstep]
      exact hrun

theorem Pass.Sound.room (h : k.Sound a q c) (htodo : k.todo ≠ []) :
    (max c (k.board.fack + 1) - q).toNat ≤ k.room := by
  have hsum : ∀ {l : List ScoreBoardNode1} {a c : ℤ}, Linked a l c →
      (((l.map fun n => (max 1 n.getLength).toNat).sum : ℕ) : ℤ) = c - a := by
    intro l
    induction l with
    | nil =>
      intro a c hl
      obtain rfl : a = c := hl
      simp
    | cons n l ih =>
      intro a c hl
      have := hl.1
      have := hl.2.1
      have := n.getLength_eq
      rw [map_cons, sum_cons, Nat.cast_add, ih hl.2.2]
      omega
  obtain ⟨l, last, hlast⟩ := (eq_nil_or_concat' k.todo).resolve_left htodo
  have hend : last.getEnd + 1 = c := by
    have hl := h.ahead
    rw [hlast, linked_append] at hl
    obtain ⟨b, -, -, -, hc⟩ := hl
    exact hc
  have hget : (k.done.reverse ++ k.todo).getLast? = some last := by
    rw [hlast, ← append_assoc, getLast?_concat]
  have := hsum h.ahead
  have := h.ahead.le
  rw [Pass.room, hget, Option.map_some, Option.getD_some]
  omega

end Ns2.ScoreBoard1
