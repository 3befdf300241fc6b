import Ns2.Sched.CalendarRefine

/-! The counters of the calendar queue, and the assertions that rest on them. -/

namespace Ns2

namespace CalendarScheduler

open ListScheduler

variable {K : Type*}

theorem length_eq_sum {h : K → ℕ} {n : ℕ} {q : List (Event K)} (hq : ∀ e ∈ q, h e.time < n) :
    q.length = ∑ i ∈ Finset.range n, (q.filter fun e => h e.time = i).length := by
  induction q with
  | nil => simp
  | cons e q ih =>
    obtain ⟨he, hq⟩ := List.forall_mem_cons.1 hq
    have hone : ∀ i, ((e :: q).filter fun e => h e.time = i).length =
        (if h e.time = i then 1 else 0) + (q.filter fun e => h e.time = i).length := by
      intro i
      rw [List.filter_cons]
      by_cases hi : h e.time = i
      · simp [hi, add_comm]
      · simp [hi]
    rw [Finset.sum_congr rfl fun i _ => hone i, Finset.sum_add_distrib, ← ih hq, Finset.sum_ite_eq,
      if_pos (Finset.mem_range.2 he), List.length_cons, add_comm]

variable [LinearOrder K]

/-- Every bucket counts its distinct times, and the totals are those of the buckets. -/
structure Counted (c : CalendarScheduler K) : Prop where
  count : ∀ i, (c.buckets i).count = ((c.buckets i).list.map Event.time).toFinset.card
  stat : c.statQsize = ∑ i ∈ Finset.range c.nbuckets, (c.buckets i).count
  size : c.qsize = ∑ i ∈ Finset.range c.nbuckets, ((c.buckets i).list.length : ℤ)
  nbuckets : 4 ≤ c.nbuckets

theorem distinct_eq_sum {h : K → ℕ} {n : ℕ} {q : List (Event K)} (hq : ∀ e ∈ q, h e.time < n) :
    distinct q = ∑ i ∈ Finset.range n, distinct (q.filter fun e => h e.time = i) := by
  have hfiber : ∀ i, (q.map Event.time).toFinset.filter (fun t => h t = i) =
      ((q.filter fun e => h e.time = i).map Event.time).toFinset := by
    intro i
    ext t
    simp only [Finset.mem_filter, List.mem_toFinset, List.mem_map, List.mem_filter,
      decide_eq_true_eq]
    constructor
    · rintro ⟨⟨e, he, rfl⟩, hi⟩
      exact ⟨e, ⟨he, hi⟩, rfl⟩
    · rintro ⟨e, ⟨he, hi⟩, rfl⟩
      exact ⟨⟨e, he, rfl⟩, hi⟩
  have hmaps : Set.MapsTo h ((q.map Event.time).toFinset : Set K) (Finset.range n : Set ℕ) := by
    intro t ht
    obtain ⟨e, he, rfl⟩ := List.mem_map.1 (List.mem_toFinset.1 ht)
    exact Finset.mem_coe.2 (Finset.mem_range.2 (hq e he))
  unfold distinct
  rw [Finset.card_eq_sum_card_fiberwise hmaps]
  exact Finset.sum_congr rfl fun i _ => congrArg Finset.card (hfiber i)

variable [Field K] [IsStrictOrderedRing K] [FloorRing K] {c : CalendarScheduler K}
  {q : List (Event K)} {sqrt : K → K}

theorem Holds.counted (h : Holds c q) : c.Counted := by
  have hn := h.nbuckets
  have hhash : ∀ e ∈ q, c.hash e.time < c.nbuckets :=
    fun e he => hash_lt h.width (by omega) (h.nonneg e he)
  refine ⟨fun i => ?_, ?_, ?_, hn⟩
  · rw [h.filled.count, h.filled.list, distinct]
  · rw [h.filled.stat, distinct_eq_sum hhash, Nat.cast_sum]
    exact Finset.sum_congr rfl fun i _ => (h.filled.count i).symm
  · rw [h.filled.size, length_eq_sum hhash, Nat.cast_sum]
    exact Finset.sum_congr rfl fun i _ => by rw [h.filled.list]

/-- Every sequence of operations is gone through without a failed assertion, and the counters are
right after it. -/
theorem counted_of_allowed (hsqrt : ∀ x, 0 < x → 0 < sqrt x) (m : CalendarScheduler K)
    {ops : List (Op K)} (hops : ListScheduler.machine.RunsWith Allowed [] ops) :
    ∃ c as, (machine sqrt).run (construct m) ops = some (c, as) ∧ c.Counted := by
  obtain ⟨c, q, as, hrun, -, hc⟩ :=
    (machine_simulates hsqrt).run (holds_construct m) (Machine.runsWith_true _ _ _) hops
  exact ⟨c, as, hrun, hc.counted⟩

/-- Two events with one time, one of which is cancelled. -/
theorem counted_of_allowed_real : ∃ c as, (machine Real.sqrt).run (construct defaults)
    [.insert ⟨0, 3, 1⟩, .insert ⟨1, 3, 2⟩, .cancel ⟨0, 3, 1⟩, .deque] = some (c, as) ∧ c.Counted := by
  refine counted_of_allowed (fun x hx => Real.sqrt_pos.2 hx) defaults ?_
  simp [Machine.RunsWith, Allowed, Admissible, ListScheduler.machine, ListScheduler.insert,
    ListScheduler.cancel]

end CalendarScheduler

end Ns2
