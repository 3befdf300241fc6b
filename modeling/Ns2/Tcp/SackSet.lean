import Mathlib.Data.Finset.Max
import Mathlib.Data.Int.Interval
import Ns2.Tcp.ScoreBoard

/-! What a scoreboard is for, as sets: the packets that SACK blocks have covered and those
that were retransmitted, between the last acknowledgement and the highest edge seen. -/

namespace Ns2

/-- The least number of a set, or -1. -/
def least (C : Finset ℤ) : ℤ := if h : C.Nonempty then C.min' h else -1

/-- Everything is since the board was last empty; it is empty when `edge` is one behind
`lastAck`. -/
structure SackSet where
  lastAck : ℤ
  edge : ℤ
  covered : Finset ℤ
  retransmitted : Finset ℤ

namespace SackSet

variable {os : List ScoreBoardOp} {C : Finset ℤ} {i : ℤ}

def empty (lastAck : ℤ) : SackSet := ⟨lastAck, lastAck + 1, ∅, ∅⟩

/-- Before the first acknowledgement. -/
def init : SackSet := empty (-1)

noncomputable def board (S : SackSet) : Finset ℤ := Finset.Ico (S.lastAck + 1) S.edge

def ack (lastAck : ℤ) (S : SackSet) : SackSet :=
  if S.edge ≤ lastAck + 1 then empty lastAck
  else { S with
    lastAck := lastAck
    retransmitted := S.retransmitted.filter fun i => lastAck < i }

/-- A covered packet is no longer retransmitted. -/
def coverSet (T : Finset ℤ) (S : SackSet) : SackSet :=
  { S with
    covered := S.covered ∪ T
    retransmitted := S.retransmitted \ T }

noncomputable def cover (S : SackSet) (block : ℤ × ℤ) : SackSet :=
  { S with edge := max S.edge block.2 }.coverSet (Finset.Ico block.1 block.2)

/-- The number that is returned is that of the retransmitted packets that leave. -/
noncomputable def update (lastAck : ℤ) (blocks : List (ℤ × ℤ)) (S : SackSet) : SackSet × ℤ :=
  let S' := blocks.foldl cover (S.ack lastAck)
  (S', S.retransmitted.card - S'.retransmitted.card)

noncomputable def markRetran (retranSeqno : ℤ) (S : SackSet) : SackSet :=
  if retranSeqno ∈ S.board then
    { S with retransmitted := insert retranSeqno S.retransmitted }
  else S

def clear (S : SackSet) : SackSet := empty S.lastAck

noncomputable def getNextRetran (S : SackSet) : ℤ := least ((S.board \ S.covered) \ S.retransmitted)

/-- The packets that are not covered, from a number on. -/
noncomputable def unackedFrom (seqno : ℤ) (S : SackSet) : Finset ℤ :=
  (S.board \ S.covered).filter fun i => seqno ≤ i

/-- Only numbers above the last acknowledgement are looked up. -/
noncomputable def getNextUnacked (seqno : ℤ) (S : SackSet) : ℤ :=
  if seqno ≤ S.lastAck then -1 else least (S.unackedFrom seqno)

/-- What an operation leaves and what it returns. -/
noncomputable def apply (S : SackSet) : ScoreBoardOp → SackSet × ℤ
  | .update lastAck blocks => S.update lastAck blocks
  | .markRetran retranSeqno => (S.markRetran retranSeqno, 0)
  | .clear => (S.clear, 0)
  | .getNextRetran => (S, S.getNextRetran)
  | .getNextUnacked seqno => (S, S.getNextUnacked seqno)

noncomputable def machine : Machine SackSet ScoreBoardOp ℤ := ⟨fun S o => some (S.apply o)⟩

/-- Acknowledgements do not go back, and blocks lie above the first unacknowledged packet. -/
def Admits (S : SackSet) : ScoreBoardOp → Prop
  | .update lastAck blocks =>
    S.lastAck ≤ lastAck ∧ ∀ b ∈ blocks, lastAck + 1 < b.1 ∧ b.1 ≤ b.2
  | _ => True

instance (S : SackSet) : ∀ o, Decidable (S.Admits o)
  | .update lastAck blocks =>
    inferInstanceAs (Decidable (S.lastAck ≤ lastAck ∧ ∀ b ∈ blocks, lastAck + 1 < b.1 ∧ b.1 ≤ b.2))
  | .markRetran _ | .getNextRetran | .getNextUnacked _ | .clear => isTrue trivial

theorem least_of_isLeast (h : IsLeast (C : Set ℤ) i) : least C = i := by
  have hne : C.Nonempty := ⟨i, h.1⟩
  rw [least, dif_pos hne]
  exact le_antisymm (C.min'_le i h.1) (h.2 (C.min'_mem hne))

theorem least_of_empty (h : ∀ i, i ∉ C) : least C = -1 := by
  rw [least, dif_neg]
  rintro ⟨i, hi⟩
  exact h i hi

theorem mem_board {S : SackSet} : i ∈ S.board ↔ S.lastAck < i ∧ i < S.edge := by
  rw [board, Finset.mem_Ico]
  omega

variable {S : SackSet} {lastAck : ℤ}

/-- The retransmitted packets that the answer of an update counts. -/
def decrement : ScoreBoardOp → ℤ → ℤ
  | .update _ _, a => a
  | _, _ => 0

def decrements (os : List ScoreBoardOp) (as : List ℤ) : ℤ := (List.zipWith decrement os as).sum

def isMark : ScoreBoardOp → Bool
  | .markRetran _ => true
  | _ => false

theorem apply_decrement (S : SackSet) (o : ScoreBoardOp) :
    decrement o (S.apply o).2 + (S.apply o).1.retransmitted.card ≤
      S.retransmitted.card + if isMark o = true then 1 else 0 := by
  cases o with
  | update lastAck blocks => simp [decrement, isMark, apply, update]
  | markRetran retranSeqno =>
    have hcard : (S.markRetran retranSeqno).retransmitted.card ≤ S.retransmitted.card + 1 := by
      rw [markRetran]
      split_ifs
      · exact Finset.card_insert_le _ _
      · omega
    simp only [decrement, isMark, apply, if_true]
    omega
  | clear => simp [decrement, isMark, apply, clear, empty]
  | getNextRetran => simp [decrement, isMark, apply]
  | getNextUnacked seqno => simp [decrement, isMark, apply]

theorem decrements_le {S S' : SackSet} {as : List ℤ} (hrun : machine.run S os = some (S', as)) :
    decrements os as + S'.retransmitted.card ≤ S.retransmitted.card + os.countP isMark := by
  induction os generalizing S as with
  | nil =>
    obtain ⟨rfl, rfl⟩ : S = S' ∧ [] = as := by simpa using hrun
    simp [decrements]
  | cons o os ih =>
    have hstep : machine.step S o = some ((S.apply o).1, (S.apply o).2) := rfl
    rw [Machine.run_cons machine os hstep] at hrun
    obtain ⟨q, hq, heq⟩ := Option.map_eq_some_iff.1 hrun
    obtain ⟨rfl, rfl⟩ := Prod.mk.inj heq
    have hfirst := S.apply_decrement o
    have hrest := ih hq
    rw [decrements] at hrest
    rw [decrements, List.zipWith_cons_cons, List.sum_cons, List.countP_cons]
    split_ifs at hfirst ⊢ <;> omega

end SackSet

end Ns2
