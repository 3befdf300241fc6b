import Ns2.Tcp.ReassemblyHole
import Ns2.Tcp.ReassemblyRun
import Ns2.Tcp.SackTrack
import Ns2.Tcp.ScoreBoardRefine

/-! `ScoreBoardRQ`, the scoreboard over a `ReassemblyQueue`, and both scoreboards side by side.
`ScoreBoardRQ` and `ScoreBoard` ask for the same retransmissions as long as the queue is not
cleared while it is ahead of the acknowledgements. -/

namespace Ns2

/-- `sack_min` is the `rcv_nxt_` of the queue. -/
structure ScoreBoardRQ where
  hSeqno : ℤ
  changed : Bool
  rq : ReassemblyQueue

namespace ScoreBoardRQ

def sackMin (s : ScoreBoardRQ) : ℤ := s.rq.rcvNxt

def init : ScoreBoardRQ := ⟨-1, false, ReassemblyQueue.init (-1)⟩

def clearScoreBoard (s : ScoreBoardRQ) : Option ScoreBoardRQ :=
  s.rq.clear.map fun rq => { s with
    rq := rq
    hSeqno := -1 }

def getNextRetran (s : ScoreBoardRQ) : Option (ScoreBoardRQ × ℤ) :=
  let h := if s.hSeqno < s.sackMin then s.sackMin else s.hSeqno
  (s.rq.nexthole h).map fun (rq, seq, fcnt, _) =>
    let s : ScoreBoardRQ := { s with
      hSeqno := h
      rq := rq }
    if seq > 0 then
      if fcnt ≤ 0 then (s, -1)
      else
        -- the hole may be further on when others have been filled
        ({ s with hSeqno := if seq > h then seq else h }, seq)
    else (s, -1)

def markRetran (retranSeqno : ℤ) (s : ScoreBoardRQ) : ScoreBoardRQ :=
  { s with hSeqno := if retranSeqno ≥ s.hSeqno then retranSeqno + 1 else s.hSeqno }

/-- The part of `UpdateScoreBoard` before the blocks, with `changed_`. -/
def ack (lastAck : ℤ) (s : ScoreBoardRQ) : Option (ReassemblyQueue × Bool) :=
  if s.sackMin ≤ lastAck then
    let rq : ReassemblyQueue := { s.rq with rcvNxt := lastAck + 1 }
    if rq.empty then some (rq, false) else rq.cleartonxt.map fun r => (r.1, true)
  else some (s.rq, false)

/-- The result is always 0. -/
def updateScoreBoard (lastAck : ℤ) (blocks : List (ℤ × ℤ)) (s : ScoreBoardRQ) :
    Option (ScoreBoardRQ × ℤ) :=
  (s.ack lastAck).bind fun (rq, changed) =>
    (blocks.foldlM (fun rq b => (ReassemblyQueue.add b.1 b.2 0 0 rq).map Prod.fst) rq).map
      fun rq => ({ s with
        changed := changed || decide (s.rq.total ≠ rq.total)
        rq := rq }, 0)

end ScoreBoardRQ

/-- Both senders see the same calls; `lastAck` is the highest acknowledgement so far. -/
structure Senders where
  ring : ScoreBoard
  rq : ScoreBoardRQ
  lastAck : ℤ

namespace Senders

variable (fresh : ℤ → ScoreBoardNode)

def init (sz : ℤ) : Senders := ⟨ScoreBoard.init fresh sz, ScoreBoardRQ.init, -1⟩

/-- What is returned by both, or 0. -/
def machine : Machine Senders ScoreBoardOp (ℤ × ℤ) where
  step t
    | .update lastAck blocks =>
      (t.ring.updateScoreBoard fresh lastAck blocks).bind fun (ring, a) =>
        (t.rq.updateScoreBoard lastAck blocks).map fun (rq, b) => (⟨ring, rq, lastAck⟩, a, b)
    | .markRetran retranSeqno => some ({ t with
      ring := t.ring.markRetran retranSeqno
      rq := t.rq.markRetran retranSeqno }, 0, 0)
    | .clear => t.rq.clearScoreBoard.map fun rq => ({ t with
      ring := t.ring.clearScoreBoard
      rq := rq }, 0, 0)
    | .getNextRetran => t.rq.getNextRetran.map fun (rq, b) =>
      ({ t with rq := rq }, t.ring.getNextRetran, b)
    | .getNextUnacked _ => none

/-- Acknowledgements do not go back, blocks are not empty and lie above the first unacknowledged
packet, and what is marked is what `GetNextRetran` returns. -/
def Sends (t : Senders) : ScoreBoardOp → Prop
  | .update lastAck blocks =>
    0 ≤ lastAck ∧ t.lastAck ≤ lastAck ∧ ∀ b ∈ blocks, lastAck + 1 < b.1 ∧ b.1 < b.2
  | .markRetran retranSeqno => retranSeqno ≠ -1 ∧ retranSeqno = t.ring.getNextRetran
  | .clear => True
  | .getNextRetran => True
  | .getNextUnacked _ => False

/-- `ClearScoreBoard` comes while `sack_min` is not past the highest acknowledgement plus one. -/
def ClearsInTime (t : Senders) : ScoreBoardOp → Prop
  | .clear => t.rq.sackMin ≤ t.lastAck + 1
  | _ => True

instance decidableSends (t : Senders) : ∀ o, Decidable (Sends t o)
  | .update lastAck blocks => inferInstanceAs (Decidable
    (0 ≤ lastAck ∧ t.lastAck ≤ lastAck ∧ ∀ b ∈ blocks, lastAck + 1 < b.1 ∧ b.1 < b.2))
  | .markRetran retranSeqno => inferInstanceAs (Decidable
    (retranSeqno ≠ -1 ∧ retranSeqno = t.ring.getNextRetran))
  | .clear => inferInstanceAs (Decidable True)
  | .getNextRetran => inferInstanceAs (Decidable True)
  | .getNextUnacked _ => inferInstanceAs (Decidable False)

instance decidableClearsInTime (t : Senders) : ∀ o, Decidable (ClearsInTime t o)
  | .clear => inferInstanceAs (Decidable (t.rq.sackMin ≤ t.lastAck + 1))
  | .update _ _ => inferInstanceAs (Decidable True)
  | .markRetran _ => inferInstanceAs (Decidable True)
  | .getNextRetran => inferInstanceAs (Decidable True)
  | .getNextUnacked _ => inferInstanceAs (Decidable True)

/-- Both answers of `GetNextRetran` are the same. -/
def Agrees : ScoreBoardOp → ℤ × ℤ → Prop
  | .getNextRetran, a => a.1 = a.2
  | _, _ => True

end Senders

open List Option

namespace ReassemblyQueue

theorem Hole.exists_split {s : ReassemblyQueue} {F : List ℕ} {seq : ℤ} {r : ℤ × ℤ × ℤ}
    (h : Hole s seq F r) :
    ∃ A B, F = A ++ B ∧ (∀ a ∈ A, s.endseq a < seq) ∧
      (B = [] ∧ r.1 = -1 ∨ ∃ p B', B = p :: B' ∧
        (seq < s.startseq p ∧ r.1 = seq ∧ 0 < r.2.1 ∨
          s.startseq p ≤ seq ∧ seq ≤ s.endseq p ∧ r.1 = s.endseq p ∧
            (B' = [] ∧ r.2.1 ≤ 0 ∨ B' ≠ [] ∧ 0 < r.2.1))) := by
  induction h with
  | none => exact ⟨[], [], rfl, by simp, Or.inl ⟨rfl, rfl⟩⟩
  | @skip p B hp r hr ih =>
    obtain ⟨A, B', rfl, hA, hB'⟩ := ih
    exact ⟨p :: A, B', rfl, forall_mem_cons.2 ⟨hp, hA⟩, hB'⟩
  | @free p B hp =>
    exact ⟨[], p :: B, rfl, by simp, Or.inr ⟨p, B, rfl, Or.inl ⟨hp, rfl, by simp⟩⟩⟩
  | @last p hp hp' =>
    exact ⟨[], [p], rfl, by simp,
      Or.inr ⟨p, [], rfl, Or.inr ⟨hp, hp', rfl, Or.inl ⟨rfl, by simp⟩⟩⟩⟩
  | @covered p q B hp hp' =>
    exact ⟨[], p :: q :: B, rfl, by simp,
      Or.inr ⟨p, q :: B, rfl, Or.inr ⟨hp, hp', rfl, Or.inr ⟨by simp, by simp⟩⟩⟩⟩

end ReassemblyQueue

namespace ScoreBoardRQ

open ReassemblyQueue

variable {rq : ReassemblyQueue} {h m k : ℤ} {blocks : List (ℤ × ℤ)}

/-- The queue and the high-water mark stand for the sets. -/
structure Follows (s : ScoreBoardRQ) (S : SackSet) (F : List ℕ) : Prop where
  holds : s.rq.Holds F
  tracks : S.Tracks (Ranges.cover (F.map s.rq.block)) s.sackMin s.hSeqno

/-- Before the first acknowledgement, `sack_min` is -1. -/
structure Starts (s : ScoreBoardRQ) (S : SackSet) : Prop where
  set : S = SackSet.init
  holds : s.rq.Holds []
  sackMin : s.sackMin = -1
  hSeqno : s.hSeqno = -1

def Rel (s : ScoreBoardRQ) (S : SackSet) : Prop := s.Starts S ∨ ∃ F, s.Follows S F

variable {s : ScoreBoardRQ} {S : SackSet} {F : List ℕ} {lastAck : ℤ}

theorem Rel.ack (h : s.Rel S) (hlow : 0 ≤ lastAck) (hack : S.lastAck ≤ lastAck) :
    ∃ rq changed F, s.ack lastAck = some (rq, changed) ∧ rq.Holds F ∧
      (S.ack lastAck).Tracks (Ranges.cover (F.map rq.block)) rq.rcvNxt s.hSeqno := by
  rw [ScoreBoardRQ.ack]
  rcases h with h | ⟨F, h⟩
  · have hempty : s.rq.empty = true := by
      obtain ⟨L, G, hrep⟩ := h.holds.rep
      exact hrep.empty_iff.2 rfl
    have hmin := h.sackMin
    have hh := h.hSeqno
    obtain ⟨L, G, hrep⟩ := h.holds.rep
    rw [if_pos (by omega)]
    dsimp only
    rw [if_pos (by exact hempty), h.set, SackSet.ack_of_edge_le (by change (0 : ℤ) ≤ _; omega)]
    refine ⟨_, false, [], rfl, ⟨⟨L, G, hrep.congr rfl rfl rfl rfl⟩, Ranges.apart_nil, ?_⟩, ?_⟩
    · exact h.holds.total
    · exact SackSet.tracks_empty hlow (by simp) (by simp) (by omega)
  · by_cases hm : s.sackMin ≤ lastAck
    · have hF : ReassemblyQueue.Holds { s.rq with rcvNxt := lastAck + 1 } F := by
        obtain ⟨L, G, hrep⟩ := h.holds.rep
        exact ⟨⟨L, G, hrep.congr rfl rfl rfl rfl⟩, h.holds.apart, h.holds.total⟩
      have t := h.tracks.ack_ahead hack
      rw [if_pos hm]
      dsimp only
      by_cases hempty : s.rq.empty = true
      · rw [if_pos (by exact hempty)]
        obtain ⟨L, G, hrep⟩ := h.holds.rep
        obtain rfl := hrep.empty_iff.1 hempty
        exact ⟨_, false, [], rfl, hF, t⟩
      · rw [if_neg (by exact hempty)]
        obtain ⟨rq', flag, F', hclear, hF', hrcv, hcover⟩ := hF.clearto (lastAck + 1)
        refine ⟨rq', true, F', ?_, hF', ?_⟩
        · rw [cleartonxt, hclear, map_some]
        · rw [hcover, hrcv]
          exact t
    · rw [if_neg hm]
      exact ⟨s.rq, false, F, rfl, h.holds, h.tracks.ack_behind hack (not_le.1 hm)⟩

section

variable (hF : rq.Holds F) (t : S.Tracks (Ranges.cover (F.map rq.block)) rq.rcvNxt h)
include hF t

theorem add_block {b : ℤ × ℤ} (hb : S.lastAck + 1 < b.1) (hlt : b.1 < b.2) :
    ∃ rq' F', (ReassemblyQueue.add b.1 b.2 0 0 rq).map Prod.fst = some rq' ∧ rq'.Holds F' ∧
      (S.cover b).Tracks (Ranges.cover (F'.map rq'.block)) rq'.rcvNxt h := by
  obtain ⟨rq', flags, F', hadd, hcovers⟩ := hF.add hlt 0 0
  refine ⟨rq', F', by rw [hadd, map_some], hcovers.toHolds, ?_⟩
  have hmoved := hcovers.moved
  rw [hcovers.cover]
  apply t.cover hb hlt
  rw [← hcovers.cover]
  refine hmoved.imp_right ?_
  rintro ⟨p, hp, hle, heq⟩
  rw [heq]
  exact ⟨rq'.startseq p, hle, hcovers.apart.nonempty _ (mem_map_of_mem hp),
    rq'.block_subset_cover hp, hcovers.toHolds.endseq_not_mem hp⟩

theorem add_blocks (hblocks : ∀ b ∈ blocks, S.lastAck + 1 < b.1 ∧ b.1 < b.2) :
    ∃ rq' F', blocks.foldlM (fun rq b => (ReassemblyQueue.add b.1 b.2 0 0 rq).map Prod.fst) rq =
        some rq' ∧ rq'.Holds F' ∧
      (blocks.foldl SackSet.cover S).Tracks (Ranges.cover (F'.map rq'.block)) rq'.rcvNxt h := by
  induction blocks generalizing rq F S with
  | nil => exact ⟨rq, F, rfl, hF, t⟩
  | cons b blocks ih =>
    rw [forall_mem_cons] at hblocks
    obtain ⟨rq₁, F₁, hadd, hF₁, t₁⟩ := add_block hF t hblocks.1.1 hblocks.1.2
    obtain ⟨rq', F', hfold, hF', t'⟩ := ih hF₁ t₁ hblocks.2
    refine ⟨rq', F', ?_, hF', t'⟩
    rw [foldlM_cons, hadd]
    exact hfold

end

theorem Rel.updateScoreBoard (h : s.Rel S) (hlow : 0 ≤ lastAck) (hack : S.lastAck ≤ lastAck)
    (hblocks : ∀ b ∈ blocks, lastAck + 1 < b.1 ∧ b.1 < b.2) :
    ∃ s', s.updateScoreBoard lastAck blocks = some (s', 0) ∧
      s'.Rel (S.update lastAck blocks).1 := by
  obtain ⟨rq, changed, F, hs, hF, t⟩ := h.ack hlow hack
  have hlast : (S.ack lastAck).lastAck = lastAck := by
    rw [SackSet.ack]
    split_ifs <;> rfl
  obtain ⟨rq', F', hfold, hF', t'⟩ := add_blocks hF t (by rwa [hlast])
  refine ⟨{ s with
    changed := changed || decide (s.rq.total ≠ rq'.total)
    rq := rq' }, ?_, Or.inr ⟨F', hF', t'⟩⟩
  rw [ScoreBoardRQ.updateScoreBoard, hs, bind_some]
  dsimp only
  rw [hfold, map_some]

theorem edge_le_of_blocks {A B : List ℕ} (t : S.Tracks (Ranges.cover ((A ++ B).map rq.block)) m k)
    (hmk : m ≤ k) (hA : ∀ a ∈ A, rq.endseq a < k) : S.edge ≤ k ∨ ∃ p ∈ B, S.edge ≤ rq.endseq p := by
  by_cases hlt : S.edge ≤ k
  · exact Or.inl hlt
  · right
    have hlow := t.low
    have htop := (t.same (S.edge - 1) (by omega)).2 (t.top (by omega))
    obtain ⟨p, hp, hle, hlt'⟩ := Ranges.mem_cover_map.1 htop
    simp only [block] at hle hlt'
    rcases mem_append.1 hp with hp | hp
    · have := hA p hp
      omega
    · exact ⟨p, hp, by omega⟩

/-- The answer that is found from the high-water mark `k` on, and where it leaves the mark. -/
theorem next_hole {r : ℤ × ℤ × ℤ} (hF : rq.Holds F)
    (t : S.Tracks (Ranges.cover (F.map rq.block)) m k) (hmk : m ≤ k) (hr : Hole rq k F r) :
    if 0 < r.1 ∧ 0 < r.2.1 then r.1 = S.getNextRetran ∧ k ≤ r.1 ∧
      S.Tracks (Ranges.cover (F.map rq.block)) m r.1
    else S.getNextRetran = -1 := by
  have hacked := t.acked
  have hlow := t.low
  obtain ⟨A, B, rfl, hA, ⟨rfl, hr₁⟩ | ⟨p, B, rfl, hB⟩⟩ := hr.exists_split
  · rw [if_neg (by omega)]
    apply t.getNextRetran_none
    intro x hx hxk hlt
    rcases edge_le_of_blocks t hmk hA with hle | ⟨p, hp, -⟩
    · omega
    · cases hp
  · have hp : p ∈ A ++ p :: B := by simp
    have hpp : rq.startseq p < rq.endseq p :=
      hF.apart.nonempty (rq.block p) (mem_map_of_mem hp)
    have hblock := rq.block_subset_cover hp
    have hapart := hF.apart
    rw [map_append, map_cons] at hapart
    have hright := (Ranges.apart_append.1 hapart).2.1
    have hnext : ∀ q ∈ B, rq.endseq p < rq.startseq q := fun q hq =>
      (Ranges.apart_cons.1 hright).2.2 _ (mem_map_of_mem hq)
    have hstart : ∀ q ∈ A ++ p :: B, rq.startseq q < S.edge := by
      intro q hq
      by_contra hge
      refine t.not_mem (not_lt.1 hge) (rq.block_subset_cover hq ?_)
      rw [Finset.mem_Ico]
      exact ⟨le_rfl, hF.apart.nonempty (rq.block q) (mem_map_of_mem hq)⟩
    rcases hB with ⟨hfree, hr₁, hr₂⟩ | ⟨hle, hge, hr₁, ⟨rfl, hr₂⟩ | ⟨hne, hr₂⟩⟩
    · have hk : k < S.edge := hfree.trans (hstart p hp)
      rw [if_pos ⟨by omega, hr₂⟩, hr₁]
      refine ⟨(t.getNextRetran_eq hmk le_rfl hk ?_ fun x _ hge hlt => by omega).symm, le_rfl, t⟩
      rw [Ranges.mem_cover_map]
      rintro ⟨q, hq, hle, hlt⟩
      simp only [block] at hle hlt
      rcases mem_append.1 hq with hq | hq
      · have := hA q hq
        omega
      · rcases mem_cons.1 hq with rfl | hq
        · omega
        · have := hnext q hq
          omega
    · rw [if_neg (by omega)]
      apply t.getNextRetran_none
      intro x hx hxk hlt
      refine hblock (Finset.mem_Ico.2 ⟨by omega, ?_⟩)
      rcases edge_le_of_blocks t hmk hA with hle' | ⟨q, hq, hle'⟩
      · omega
      · obtain rfl := mem_singleton.1 hq
        omega
    · obtain ⟨q, B', rfl⟩ := exists_cons_of_ne_nil hne
      have hq := hnext q mem_cons_self
      have hedge := hstart q (by simp)
      have hbetween : ∀ x, k ≤ x → x < rq.endseq p →
          x ∈ Ranges.cover ((A ++ p :: q :: B').map rq.block) := fun x hge' hlt =>
        hblock (Finset.mem_Ico.2 ⟨by omega, hlt⟩)
      rw [if_pos ⟨by omega, hr₂⟩, hr₁]
      refine ⟨?_, hge, t.raise hge (by omega) fun x _ hge' hlt => hbetween x hge' hlt⟩
      exact (t.getNextRetran_eq (hmk.trans hge) hge (by omega) (hF.endseq_not_mem hp)
        fun x _ hge' hlt => hbetween x hge' hlt).symm

theorem Follows.getNextRetran (h : s.Follows S F) :
    ∃ s', s.getNextRetran = some (s', S.getNextRetran) ∧ s'.Follows S F := by
  generalize hk : (if s.hSeqno < s.sackMin then s.sackMin else s.hSeqno) = k
  have hmk : s.sackMin ≤ k ∧ s.hSeqno ≤ k := by
    split_ifs at hk <;> omega
  have hkmax : k = s.sackMin ∨ k = s.hSeqno := by
    split_ifs at hk <;> omega
  obtain ⟨rq, r, hhole, hr, hF, hblock, hrcv⟩ := h.holds.nexthole k
  -- the high-water mark moves up to `k` in any case
  have tk : S.Tracks (Ranges.cover (F.map rq.block)) rq.rcvNxt k := by
    rw [hblock, hrcv]
    refine h.tracks.raise hmk.2 ?_ fun x hx hge hlt => ?_
    · rcases hkmax with rfl | rfl
      · exact h.tracks.minTop
      · exact h.tracks.markTop
    · rcases hkmax with rfl | rfl
      · exact h.tracks.inSeq x hx hlt
      · omega
  have hnext := next_hole hF tk (hrcv ▸ hmk.1) hr
  obtain ⟨seq, fcnt, fbytes⟩ := r
  rw [ScoreBoardRQ.getNextRetran]
  simp only [hk, hhole, map_some]
  by_cases hpos : 0 < seq ∧ 0 < fcnt
  · rw [if_pos hpos] at hnext
    obtain ⟨heq, hge, t'⟩ := hnext
    have hmax : (if seq > k then seq else k) = seq := by
      split_ifs <;> omega
    rw [if_pos hpos.1, if_neg (by omega), ← heq, hmax]
    exact ⟨_, rfl, hF, t'⟩
  · rw [if_neg hpos] at hnext
    refine ⟨⟨k, s.changed, rq⟩, ?_, hF, tk⟩
    rw [hnext]
    by_cases hseq : seq > 0
    · rw [if_pos hseq, if_pos (by omega)]
    · rw [if_neg hseq]

theorem Starts.getNextRetran (h : s.Starts S) :
    ∃ s', s.getNextRetran = some (s', S.getNextRetran) ∧ s'.Starts S := by
  have hmin := h.sackMin
  have hh := h.hSeqno
  obtain ⟨rq, r, hhole, hr, hF, hblock, hrcv⟩ := h.holds.nexthole (-1)
  obtain rfl : r = (-1, -1, -1) := by
    cases hr
    rfl
  have hset : S.getNextRetran = -1 := by
    rw [h.set]
    rfl
  refine ⟨⟨-1, s.changed, rq⟩, ?_, h.set, hF, hrcv.trans hmin, rfl⟩
  rw [ScoreBoardRQ.getNextRetran, if_neg (by omega), hh, hset]
  simp [hhole]

theorem Rel.getNextRetran (h : s.Rel S) :
    ∃ s', s.getNextRetran = some (s', S.getNextRetran) ∧ s'.Rel S := by
  rcases h with h | ⟨F, h⟩
  · obtain ⟨s', heq, h'⟩ := h.getNextRetran
    exact ⟨s', heq, Or.inl h'⟩
  · obtain ⟨s', heq, h'⟩ := h.getNextRetran
    exact ⟨s', heq, Or.inr ⟨F, h'⟩⟩

theorem Rel.markRetran (h : s.Rel S) (hv : S.getNextRetran ≠ -1) :
    (s.markRetran S.getNextRetran).Rel (S.markRetran S.getNextRetran) := by
  rcases h with h | ⟨F, h⟩
  · refine absurd ?_ hv
    rw [h.set]
    rfl
  · obtain ⟨hle, t⟩ := h.tracks.markRetran hv
    refine Or.inr ⟨F, h.holds, ?_⟩
    have hmark : (s.markRetran S.getNextRetran).hSeqno = S.getNextRetran + 1 := if_pos hle
    rw [hmark]
    exact t

theorem Rel.clearScoreBoard (h : s.Rel S) (hm : s.sackMin ≤ S.lastAck + 1) :
    ∃ s', s.clearScoreBoard = some s' ∧ s'.Rel S.clear := by
  rcases h with h | ⟨F, h⟩
  · obtain ⟨rq, hclear, hF, hrcv⟩ := h.holds.clear
    refine ⟨{ s with rq := rq, hSeqno := -1 }, ?_, Or.inl ⟨?_, hF, hrcv.trans h.sackMin, rfl⟩⟩
    · rw [ScoreBoardRQ.clearScoreBoard, hclear, map_some]
    · rw [h.set]
      rfl
  · obtain ⟨rq, hclear, hF, hrcv⟩ := h.holds.clear
    refine ⟨{ s with rq := rq, hSeqno := -1 }, ?_, Or.inr ⟨[], hF, ?_⟩⟩
    · rw [ScoreBoardRQ.clearScoreBoard, hclear, map_some]
    · have t := h.tracks.clear hm
      rw [sackMin, ← hrcv] at t
      exact t

end ScoreBoardRQ

namespace ScoreBoard

variable {s : ScoreBoard} {S : SackSet}

theorem Rep.ownSlot (h : s.Rep S) (hv : S.getNextRetran ≠ -1) :
    OwnSlot s (.markRetran S.getNextRetran) := by
  have hleast := SackSet.isLeast_least hv
  have hmem := (Finset.mem_sdiff.1 (Finset.mem_sdiff.1 (Finset.mem_coe.1 hleast.1)).1).1
  obtain ⟨hlt, hlt'⟩ := SackSet.mem_board.1 hmem
  have hlow := h.low
  have hlen := h.length
  have hsmall := h.small
  change S.lastAck < S.getNextRetran at hlt
  change S.getNextRetran < S.edge at hlt'
  refine ⟨by omega, fun i hi hi' hslot => ?_⟩
  have hfirst := h.first (by omega)
  exact emod_injOn s.first s.sbsize ⟨hi, by omega⟩ ⟨by omega, by omega⟩ hslot

end ScoreBoard

namespace Senders

variable (fresh : ℤ → ScoreBoardNode)

/-- Both senders stand for the same sets. -/
structure Inv (t : Senders) (S : SackSet) : Prop where
  ring : t.ring.Rep S
  rq : t.rq.Rel S
  lastAck : t.lastAck = S.lastAck

theorem Inv.step {t : Senders} {S : SackSet} {o : ScoreBoardOp} (h : t.Inv S) (hsends : Sends t o)
    (hclears : ClearsInTime t o) :
    ∃ t' a, (machine fresh).step t o = some (t', a) ∧ (∃ S', t'.Inv S') ∧ Agrees o a := by
  cases o with
  | update lastAck blocks =>
    obtain ⟨hlow, hack, hblocks⟩ := hsends
    rw [h.lastAck] at hack
    obtain ⟨ring, hring, hrep⟩ := h.ring.updateScoreBoard fresh hack fun b hb =>
      ⟨(hblocks b hb).1, (hblocks b hb).2.le⟩
    obtain ⟨rq, hrq, hrel⟩ := h.rq.updateScoreBoard hlow hack hblocks
    have hlast : (S.update lastAck blocks).1.lastAck = lastAck := SackSet.update_lastAck S blocks
    refine ⟨⟨ring, rq, lastAck⟩, ((S.update lastAck blocks).2, 0), ?_,
      ⟨_, hrep, hrel, hlast.symm⟩, trivial⟩
    rw [machine]
    dsimp only
    rw [hring, bind_some, hrq, map_some]
  | markRetran v =>
    obtain ⟨hv, heq⟩ := hsends
    rw [h.ring.getNextRetran] at heq
    subst heq
    refine ⟨_, _, rfl, ⟨_, h.ring.markRetran (h.ring.ownSlot hv), h.rq.markRetran hv, ?_⟩, trivial⟩
    rw [SackSet.markRetran]
    split_ifs <;> exact h.lastAck
  | clear =>
    obtain ⟨rq, hrq, hrel⟩ := h.rq.clearScoreBoard (h.lastAck ▸ hclears)
    refine ⟨{ t with ring := t.ring.clearScoreBoard, rq := rq }, (0, 0), ?_,
      ⟨_, ScoreBoard.Rep.of_empty h.ring.low h.ring.size rfl, hrel, h.lastAck⟩, trivial⟩
    rw [machine]
    dsimp only
    rw [hrq, map_some]
  | getNextRetran =>
    obtain ⟨rq, hrq, hrel⟩ := h.rq.getNextRetran
    refine ⟨{ t with rq := rq }, (t.ring.getNextRetran, S.getNextRetran), ?_,
      ⟨S, h.ring, hrel, h.lastAck⟩, h.ring.getNextRetran⟩
    rw [machine]
    dsimp only
    rw [hrq, map_some]
  | getNextUnacked seqno => exact hsends.elim

theorem inv_init {sz : ℤ} (hsz : 2 ≤ sz) : (init fresh sz).Inv SackSet.init where
  ring := ScoreBoard.Rep.of_empty le_rfl hsz rfl
  rq := Or.inl ⟨rfl, ReassemblyQueue.Holds.init (-1), rfl, rfl⟩
  lastAck := rfl

/-- Neither sender aborts, and all calls of `GetNextRetran` return the same. -/
theorem senders_agree {sz : ℤ} (hsz : 2 ≤ sz) {os : List ScoreBoardOp}
    (hos : (machine fresh).RunsWith (fun t o => Sends t o ∧ ClearsInTime t o) (init fresh sz) os) :
    ∃ t as, (machine fresh).run (init fresh sz) os = some (t, as) ∧
      List.Forall₂ Agrees os as := by
  obtain ⟨t, as, hrun, -, hagree⟩ := Machine.RunsWith.exists_run
    (I := fun t => ∃ S, t.Inv S) (fun t o ⟨S, hS⟩ ho => hS.step fresh ho.1 ho.2) hos
    ⟨SackSet.init, inv_init fresh hsz⟩
  exact ⟨t, as, hrun, hagree⟩

/-- An acknowledgement cuts a block, a hole is filled, and the board is cleared when nothing is
ahead. -/
def cutting : List ScoreBoardOp :=
  [.getNextRetran, .update 0 [(3, 6)], .getNextRetran, .markRetran 1, .getNextRetran,
    .update 4 [(8, 9), (11, 12)], .getNextRetran, .markRetran 6, .getNextRetran, .clear,
    .update 5 [(9, 10)], .getNextRetran]

theorem senders_agree_cutting : ∃ t as,
    (machine ScoreBoard.blank).run (init ScoreBoard.blank 4) cutting = some (t, as) ∧
      List.Forall₂ Agrees cutting as :=
  senders_agree ScoreBoard.blank (by decide) (by decide +kernel)

/-- Only 3 is acknowledged, but `sack_min` is 7 when the queue is cleared. -/
def clearedAhead : List ScoreBoardOp :=
  [.update 0 [(3, 5)], .update 3 [(5, 7)], .clear, .update 3 [(8, 9)], .getNextRetran]

/-- `ClearScoreBoard` does not set `sack_min` back. -/
theorem not_senders_agree :
    ¬ ∀ os, (machine ScoreBoard.blank).RunsWith Sends (init ScoreBoard.blank 64) os →
      ∃ t as, (machine ScoreBoard.blank).run (init ScoreBoard.blank 64) os = some (t, as) ∧
        List.Forall₂ Agrees os as := by
  intro h
  have hos : (machine ScoreBoard.blank).RunsWith Sends (init ScoreBoard.blank 64) clearedAhead := by
    decide +kernel
  have hrun : ((machine ScoreBoard.blank).run (init ScoreBoard.blank 64) clearedAhead).map
      Prod.snd = some [(0, 0), (0, 0), (0, 0), (0, 0), (4, 7)] := by decide +kernel
  obtain ⟨t, as, heq, hagree⟩ := h clearedAhead hos
  rw [heq, map_some, some.injEq] at hrun
  dsimp only at hrun
  subst hrun
  simp [clearedAhead, Agrees] at hagree

end Senders

end Ns2
