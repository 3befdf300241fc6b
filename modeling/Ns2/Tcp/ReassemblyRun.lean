import Ns2.Tcp.ReassemblyAdd

/-! What a `ReassemblyQueue` holds after any calls of `add` and `clearto`. -/

namespace Ns2.ReassemblyQueue

open Ranges List

variable {s : ReassemblyQueue} {F L G : List ℕ}

theorem Rep.clearBelow {seq : ℤ} {D R : List ℕ} {fuel : ℕ} (flag : ℕ) (h : s.Rep (D ++ R) L G)
    (hfuel : D.length < fuel) (hD : ∀ p ∈ D, s.endseq p ≤ seq)
    (hR : ∀ p ∈ R.head?, seq < s.endseq p) :
    ∃ s' flag' L' G', clearBelow seq fuel (D ++ R).head? s flag = some (R.head?, s', flag') ∧
      s'.Rep R L' G' ∧ s'.block = s.block ∧ s'.rcvNxt = s.rcvNxt ∧
      s'.total = s.total - ↑(size (D.map s.block)) := by
  induction D generalizing s L G fuel flag with
  | nil =>
    obtain ⟨n, rfl⟩ := Nat.exists_eq_add_of_lt hfuel
    refine ⟨s, flag, L, G, ?_, h, rfl, rfl, by simp⟩
    cases R with
    | nil => rfl
    | cons r R =>
      have hr := hR r rfl
      simp [ReassemblyQueue.clearBelow, hr]
  | cons p D ih =>
    obtain ⟨n, rfl⟩ := Nat.exists_eq_add_of_lt hfuel
    rw [forall_mem_cons] at hD
    have h' : s.Rep ([] ++ p :: (D ++ R)) L G := h
    obtain ⟨hrep, hloose⟩ := (h'.congr rfl rfl rfl rfl : Rep { s with
      total := s.total - ↑(s.endseq p - s.startseq p) } _ L G).unlink
    obtain ⟨s', flag', L', G', hclear, hrep', hblock, hrcv, htotal⟩ :=
      ih (flag ||| s.pflags p) (hrep.deleteseginfo hloose)
        (show D.length < D.length + n + 1 by omega) hD.2 hR
    refine ⟨s', flag', L', G', ?_, hrep', hblock, hrcv, ?_⟩
    · rw [length_cons, show D.length + 1 + n + 1 = (D.length + n + 1) + 1 by omega,
        cons_append, head?_cons, ReassemblyQueue.clearBelow, if_pos hD.1, h'.fifo.next]
      dsimp only
      rw [fremove_sremove]
      exact hclear
    · rw [map_cons, size_cons, htotal]
      change s.total - ↑((s.block p).2 - (s.block p).1) - _ = _
      rw [Int.cast_add, sub_sub]
      rfl

theorem Holds.clearto (h : s.Holds F) (seq : ℤ) :
    ∃ s' flag F', s.clearto seq = some (s', flag) ∧ s'.Holds F' ∧ s'.rcvNxt = s.rcvNxt ∧
      Ranges.cover (F'.map s'.block) =
        (Ranges.cover (F.map s.block)).filter fun x => seq ≤ x := by
  obtain ⟨D, R, rfl, hD, hR⟩ : ∃ D R, F = D ++ R ∧ (∀ p ∈ D, s.endseq p ≤ seq) ∧
      ∀ p ∈ R, seq < s.endseq p := by
    obtain ⟨A, M, B, rfl, hA, hM, hB⟩ := h.apart.split seq seq
    refine ⟨A, M ++ B, rfl, hA, fun p hp => ?_⟩
    rcases mem_append.1 hp with hp | hp
    · exact (hM p hp).1
    · exact (hB p hp).1
  obtain ⟨L, G, hrep⟩ := h.rep
  have hlen := hrep.length_lt
  rw [length_append] at hlen
  obtain ⟨s', flag', L', G', hclear, hrep', hblock, hrcv, htotal⟩ :=
    hrep.clearBelow 0 (show D.length < s.fresh + 1 by omega) hD
      fun p hp => hR p (mem_of_head? hp)
  have hapart := h.apart
  rw [map_append] at hapart
  have hR' : s'.Holds R := by
    refine ⟨⟨L', G', hrep'⟩, hblock ▸ (apart_append.1 hapart).2.1, ?_⟩
    rw [htotal, h.total, hblock, map_append, size_append, Int.cast_add, add_sub_cancel_left]
  have hcover : (Ranges.cover ((D ++ R).map s.block)).filter (fun x => seq ≤ x) =
      (Ranges.cover (R.map s'.block)).filter fun x => seq ≤ x := by
    rw [map_append, cover_append, Finset.filter_union, filter_cover_of_le hD,
      Finset.empty_union, hblock]
  rw [hcover]
  simp only [ReassemblyQueue.clearto, hrep.fifo.first, hclear, Option.map_some]
  cases R with
  | nil => exact ⟨s', flag', [], rfl, hR', hrcv, rfl⟩
  | cons r R =>
    have hend : seq < s'.endseq r := by
      rw [(startseq_endseq_of_block hblock).2]
      exact hR r mem_cons_self
    have hapart' := hR'.apart
    obtain ⟨-, hrest, hsorted⟩ := apart_cons.1 (map_cons ▸ hapart')
    have habove : ∀ p ∈ R, seq ≤ (s'.block p).1 := by
      intro p hp
      have := hsorted _ (mem_map_of_mem hp)
      exact hend.le.trans this.le
    simp only [head?_cons]
    by_cases hcut : s'.startseq r ≤ seq
    · rw [if_pos ⟨hcut, hend⟩]
      have hnodup : ([] ++ r :: R).Nodup := hrep'.fifo.nodup
      have hmap : ∀ t : ReassemblyQueue, t.endseq = s'.endseq →
          t.startseq = Function.update s'.startseq r seq →
          (r :: R).map t.block = [] ++ (seq, s'.endseq r) :: R.map s'.block := by
        intro t hend hstart
        refine (map_block_update (s := s') hnodup fun x hx => ?_).trans ?_
        · simp only [block, hend, hstart, Function.update_of_ne hx]
        · simp only [block, hend, hstart, Function.update_self, map_nil]
      refine ⟨_, _, r :: R, rfl, ⟨⟨L', G', hrep'.congr rfl rfl rfl rfl⟩, ?_, ?_⟩, hrcv, ?_⟩
      · rw [hmap _ (by rfl) (by rfl)]
        exact apart_cons.2 ⟨hend, hrest, hsorted⟩
      · rw [hmap _ (by rfl) (by rfl)]
        simp only [hR'.total, nil_append, map_cons, size_cons, block]
        rw [← Int.cast_sub]
        congr 1
        omega
      · rw [hmap _ (by rfl) (by rfl), nil_append, cover_cons, map_cons, cover_cons,
          Finset.filter_union, filter_cover_of_ge habove]
        congr 1
        ext x
        simp only [Finset.mem_filter, Finset.mem_Ico, block]
        omega
    · rw [if_neg fun hand => hcut hand.1]
      refine ⟨s', flag', r :: R, rfl, hR', hrcv, ?_⟩
      rw [filter_cover_of_ge]
      exact forall_mem_cons.2 ⟨(not_le.1 hcut).le, habove⟩

theorem sacksFrom_eq {L₁ L₂ : List ℕ} (h : s.lifo.Rep (L₁ ++ L₂)) (n : ℕ) :
    s.sacksFrom n L₂.head? = (L₂.map s.block).take n := by
  induction L₂ generalizing L₁ n with
  | nil => cases n <;> rfl
  | cons p L₂ ih =>
    cases n with
    | zero => rfl
    | succ n =>
      have h' : s.lifo.Rep ((L₁ ++ [p]) ++ L₂) := by simpa using h
      rw [head?_cons, sacksFrom, h.next, ih h', map_cons, take_succ_cons, block]

theorem Rep.gensack (h : s.Rep F L G) (n : ℕ) : s.gensack n = (L.map s.block).take n := by
  rw [ReassemblyQueue.gensack, h.lifo.first]
  have hnil : s.lifo.Rep ([] ++ L) := h.lifo
  exact sacksFrom_eq hnil n

end Ns2.ReassemblyQueue

namespace Ns2

open List

namespace QueueOp

def Valid : QueueOp → Prop
  | add sseq eseq _ _ => sseq < eseq
  | clearto _ => True

noncomputable def apply (C : Finset ℤ) : QueueOp → Finset ℤ
  | add sseq eseq _ _ => C ∪ Finset.Ico sseq eseq
  | clearto seq => C.filter fun x => seq ≤ x

/-- What has been added and not been cleared since. -/
noncomputable def received (os : List QueueOp) : Finset ℤ := os.foldl apply ∅

end QueueOp

namespace ReassemblyQueue

open Ranges

theorem Holds.step {s : ReassemblyQueue} {F : List ℕ} (h : s.Holds F) {o : QueueOp}
    (ho : o.Valid) :
    ∃ s' F', s.step o = some s' ∧ s'.Holds F' ∧
      Ranges.cover (F'.map s'.block) = o.apply (Ranges.cover (F.map s.block)) := by
  cases o with
  | add sseq eseq pflags rqflags =>
    obtain ⟨s', flags, F', hadd, hcovers⟩ := h.add ho pflags rqflags
    exact ⟨s', F', by rw [ReassemblyQueue.step, hadd, Option.map_some], hcovers.toHolds,
      hcovers.cover⟩
  | clearto seq =>
    obtain ⟨s', flag, F', hclear, h', -, hcover⟩ := h.clearto seq
    exact ⟨s', F', by rw [ReassemblyQueue.step, hclear, Option.map_some], h', hcover⟩

theorem Holds.run {s : ReassemblyQueue} {F : List ℕ} (h : s.Holds F) {os : List QueueOp}
    (hos : ∀ o ∈ os, o.Valid) :
    ∃ s' F', s.run os = some s' ∧ s'.Holds F' ∧
      Ranges.cover (F'.map s'.block) = os.foldl QueueOp.apply (Ranges.cover (F.map s.block)) := by
  induction os generalizing s F with
  | nil => exact ⟨s, F, rfl, h, rfl⟩
  | cons o os ih =>
    rw [forall_mem_cons] at hos
    obtain ⟨s₁, F₁, hstep, h₁, hcover₁⟩ := h.step hos.1
    obtain ⟨s', F', hrun, h', hcover'⟩ := ih h₁ hos.2
    refine ⟨s', F', ?_, h', ?_⟩
    · rw [ReassemblyQueue.run, foldlM_cons, hstep]
      exact hrun
    · rw [hcover', hcover₁, foldl_cons]

theorem Holds.init (rcvNxt : ℤ) : (init rcvNxt).Holds [] :=
  ⟨⟨[], [], Rep.init rcvNxt⟩, apart_nil, rfl⟩

theorem toInt_intCast_eq_iff {n : ℕ} : (((n : ℤ) : BitVec 32)).toInt = n ↔ n < 2 ^ 31 := by
  rw [BitVec.toInt_intCast]
  constructor
  · intro h
    have hlt := BitVec.toInt_lt (x := ((n : ℤ) : BitVec 32))
    rw [BitVec.toInt_intCast] at hlt
    omega
  · intro h
    exact Int.bmod_eq_of_le (by omega) (by omega)

/-- The FIFO and the LIFO hold the same blocks, which are sorted, do not touch and cover what has
been received. -/
theorem queue_covers (rcvNxt : ℤ) {os : List QueueOp} (hos : ∀ o ∈ os, o.Valid) :
    ∃ s F L, (ReassemblyQueue.init rcvNxt).run os = some s ∧ s.fifo.Rep F ∧ s.lifo.Rep L ∧
      L.Perm F ∧ Apart (F.map s.block) ∧
      Ranges.cover (F.map s.block) = QueueOp.received os ∧
      (s.total.toInt = (QueueOp.received os).card ↔ (QueueOp.received os).card < 2 ^ 31) ∧
      ∀ n, s.gensack n = (L.map s.block).take n ∧ (s.gensack n).Nodup ∧
        ∀ b ∈ s.gensack n, Finset.Ico b.1 b.2 ⊆ QueueOp.received os := by
  obtain ⟨s, F, hrun, h, hcover⟩ := (Holds.init rcvNxt).run hos
  obtain ⟨L, G, hrep⟩ := h.rep
  have hreceived : Ranges.cover (F.map s.block) = QueueOp.received os := hcover
  have hperm : (L.map s.block).Perm (F.map s.block) := hrep.perm.map s.block
  refine ⟨s, F, L, hrun, hrep.fifo, hrep.lifo, hrep.perm, h.apart, hreceived, ?_, fun n => ?_⟩
  · rw [h.total, ← h.apart.card_cover, hreceived]
    exact toInt_intCast_eq_iff
  · rw [hrep.gensack n]
    refine ⟨rfl, ?_, fun b hb => ?_⟩
    · exact (hperm.nodup_iff.2 h.apart.nodup).sublist (take_sublist n _)
    · rw [← hreceived]
      intro x hx
      exact mem_cover.2 ⟨b, hperm.subset (mem_of_mem_take hb), Finset.mem_Ico.1 hx⟩

def overlapping : List QueueOp :=
  [.add 2 4 0 0, .add 6 8 0 0, .add 10 12 0 0, .add 1 7 0 0, .add 9 10 0 0, .clearto 3]

theorem queue_covers_overlapping : ∃ s F L,
    (ReassemblyQueue.init 1).run overlapping = some s ∧ s.fifo.Rep F ∧ s.lifo.Rep L ∧
      L.Perm F ∧ Apart (F.map s.block) ∧
      Ranges.cover (F.map s.block) = QueueOp.received overlapping ∧
      (s.total.toInt = (QueueOp.received overlapping).card ↔
        (QueueOp.received overlapping).card < 2 ^ 31) ∧
      ∀ n, s.gensack n = (L.map s.block).take n ∧ (s.gensack n).Nodup ∧
        ∀ b ∈ s.gensack n, Finset.Ico b.1 b.2 ⊆ QueueOp.received overlapping :=
  queue_covers 1 (by simp [overlapping, QueueOp.Valid])

/-- All the sequence numbers but one, and `total_` is -1. -/
theorem not_total_eq : ¬ ∀ os : List QueueOp, (∀ o ∈ os, o.Valid) →
    ∃ s, (ReassemblyQueue.init 0).run os = some s ∧
      s.total.toInt = (QueueOp.received os).card := by
  intro h
  obtain ⟨s, hrun, htotal⟩ := h [.add (-2147483648) 2147483647 0 0] (by simp [QueueOp.Valid])
  have hwrap : ((ReassemblyQueue.init 0).run [.add (-2147483648) 2147483647 0 0]).map
      (fun s => s.total.toInt) = some (-1) := by decide
  rw [hrun, Option.map_some] at hwrap
  rw [Option.some.inj hwrap] at htotal
  omega

end ReassemblyQueue

end Ns2
