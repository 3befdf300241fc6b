import Mathlib.Algebra.Order.BigOperators.Group.Finset
import Ns2.Queue.SfqRounds

/-! When `SFQ` does all it is there for: the hash must stay in the array, and `clear` must not meet
an array of empty buckets, past the end of which it runs. -/

namespace Ns2.Sfq

open FlowQueues RoundRobin

variable {c : Config} {s : Sfq} {r : List ℤ} {ops : List SfqOp} {p : Packet}

/-- The sum of the addresses of a packet, as an `int`. -/
def key (p : Packet) : ℤ := (p.saddr.toInt + p.daddr.toInt).bmod (2 ^ 32)

/-- The sum is positive, or the buckets divide what `hash` makes of it. -/
def Fits (c : Config) (p : Packet) : Prop :=
  0 < key p ∨ c.buckets ∣ (key p + key p / 256 - key p / 16 - 1).tmod 1048575

theorem key_eq (p : Packet) : key p = (p.saddr + p.daddr).toInt := (BitVec.toInt_add ..).symm

theorem toInt_scramble (p : Packet) :
    (scramble p).toInt = key p + key p / 256 - key p / 16 - 1 := by
  have hlow := BitVec.le_toInt (p.saddr + p.daddr)
  have hhigh := BitVec.toInt_lt (x := p.saddr + p.daddr)
  unfold scramble
  dsimp only
  rw [key_eq]
  generalize p.saddr + p.daddr = k at hlow hhigh ⊢
  have hsum : (k + k.sshiftRight 8 + ~~~k.sshiftRight 4).toInt =
      (k.toInt + k.toInt / 2 ^ 8 + (-(k.toInt / 2 ^ 4) - 1)).bmod (2 ^ 32) := by
    rw [BitVec.not_eq_neg_add]
    simp only [BitVec.toInt_add, BitVec.toInt_sub, BitVec.toInt_neg, BitVec.toInt_sshiftRight,
      Int.shiftRight_eq_div_pow, Int.bmod_add_bmod, Int.add_bmod_bmod, Int.bmod_sub_bmod]
    rfl
  rw [hsum, Int.bmod_eq_of_le (by omega) (by omega)]
  omega

theorem scramble_nonneg_iff (p : Packet) : 0 ≤ (scramble p).toInt ↔ 0 < key p := by
  rw [toInt_scramble]
  omega

theorem tmod_mem_iff {a n : ℤ} (hn : 0 < n) : 0 ≤ a.tmod n ∧ a.tmod n < n ↔ 0 ≤ a ∨ n ∣ a := by
  rw [and_iff_left (Int.tmod_lt_of_pos a hn)]
  constructor
  · intro h
    by_contra hnot
    rw [not_or, not_le] at hnot
    have hle : 0 ≤ (-a).tmod n := Int.tmod_nonneg n (by omega)
    rw [Int.neg_tmod] at hle
    exact hnot.2 (Int.dvd_of_tmod_eq_zero (by omega))
  · rintro (h | h)
    · exact Int.tmod_nonneg n h
    · exact (Int.tmod_eq_zero_of_dvd h).ge

theorem inArray_which_iff (hbuckets : 0 < c.buckets) (p : Packet) :
    InArray c (which c p) ↔ Fits c p := by
  have hhash : hash p = (key p + key p / 256 - key p / 16 - 1).tmod 1048575 := by
    rw [← toInt_scramble]
    rfl
  have hscramble : 0 ≤ hash p ↔ 0 ≤ (scramble p).toInt ∨ (1048575 : ℤ) ∣ (scramble p).toInt := by
    have hmod := tmod_mem_iff (a := (scramble p).toInt) (n := 1048575) (by omega)
    rwa [and_iff_left (Int.tmod_lt_of_pos _ (by omega))] at hmod
  unfold InArray which Fits
  rw [tmod_mem_iff hbuckets, hscramble, scramble_nonneg_iff, or_assoc, ← hhash]
  refine or_congr_right ⟨fun h => h.elim (fun hdvd => ?_) id, Or.inr⟩
  -- a hash of zero
  have hzero : hash p = 0 := Int.tmod_eq_zero_of_dvd hdvd
  exact hzero ▸ dvd_zero _

/-- What the counters and the circle are kept for. -/
structure Books (c : Config) (s : Sfq) : Prop where
  occupied : s.occupied = s.stored c
  le : s.occupied ≤ c.maxqueue
  ring : ∃ r, s.circle.Rep r ∧ s.active = r.head? ∧ ∀ f, f ∈ r ↔ InArray c f ∧ s.queues f ≠ []

/-- The command ends with every bucket of the array checked. -/
def Checks (c : Config) (s : Sfq) : Prop :=
  ∃ n, s.clear c = some (.checked n) ∧ (s.allocated → n = c.buckets)

/-- What the queue promises of a sequence of operations. -/
structure Works (c : Config) (ops : List SfqOp) : Prop where
  index : ∀ p ∈ arrivals ops, InArray c (which c p)
  run : ∃ s as, (machine c).run new ops = some (s, as) ∧ Books c s ∧
    Passes (which c) new.queues (kept ops as) (sent ops as) s.queues ∧
    (s.occupied = 0 → Checks c s)
  rounds : FairRounds c ops

theorem Rep.books (h : s.Rep c r) : Books c s where
  occupied := h.occupied
  le := h.le
  ring := by
    refine ⟨r, h.ring, h.active, fun f => ?_⟩
    rw [← h.mem_iff f]
    exact ⟨fun hf => ⟨h.array f hf, hf⟩, And.right⟩

theorem books_new (hmax : 0 ≤ c.maxqueue) : Books c new where
  occupied := (Finset.sum_eq_zero fun _ _ => rfl).symm
  le := hmax
  ring := ⟨[], Circle.Rep.nil, rfl, fun f => by simp [queues, new]⟩

theorem clearFrom_eq_none {i q : ℤ} (hi : i ≠ 0) (hq : 0 ≤ q)
    (hpkts : ∀ f, InArray c f → (s.bucket f).pkts = 0) : clearFrom c s i q = none := by
  fun_induction clearFrom c s i q with
  | case1 q _ hin hne => exact absurd (hpkts q hin) hne
  | case2 q _ hin _ ih => exact ih (by omega)
  | case3 => rfl
  | case4 q hzero => exact absurd hi hzero

theorem Rep.not_checks (h : s.Rep c r) (hbuckets : 0 < c.buckets) (hzero : s.occupied = 0) :
    ¬ Checks c s := by
  rintro ⟨n, hclear, -⟩
  have hstored := h.occupied.symm.trans hzero
  unfold stored at hstored
  rw [Finset.sum_eq_zero_iff_of_nonneg fun _ _ => Int.natCast_nonneg _] at hstored
  have hpkts : ∀ f, InArray c f → (s.bucket f).pkts = 0 :=
    fun f hf => (h.pkts f).trans (hstored f (Finset.mem_Ico.2 hf))
  rw [clear, if_pos h.allocated, clearFrom_eq_none hbuckets.ne' le_rfl hpkts] at hclear
  cases hclear

theorem pos_of_run {as : List (Option Packet)} (hops : ops ≠ [])
    (hrun : (machine c).run new ops = some (s, as)) : 0 < c.buckets := by
  obtain ⟨o, os, rfl⟩ := List.exists_cons_of_ne_nil hops
  by_contra hle
  have hready : new.ready c = none := if_neg hle
  have hstep : (machine c).step new o = none := by
    cases o with
    | enque p => exact congrArg (Option.bind · _) hready
    | deque => exact congrArg (Option.bind · _) hready
  rw [Machine.run, hstep] at hrun
  cases hrun

section

variable (hmax : 0 ≤ c.maxqueue) (hbuckets : 0 < c.buckets)
  (hops : ∀ p ∈ arrivals ops, InArray c (which c p)) (hne : ops ≠ [])
include hmax hbuckets hops hne

theorem exists_run :
    ∃ s as r, (machine c).run new ops = some (s, as) ∧ s.Rep c r ∧
      Passes (which c) new.queues (kept ops as) (sent ops as) s.queues := by
  obtain ⟨s, as, r, hrun, hallocated, hs, hpasses, -⟩ := (stands_new hmax).run hbuckets hops
  have hopened : s.opened c = s := if_pos (hallocated hne)
  exact ⟨s, as, r, hrun, hopened ▸ hs.rep, hpasses⟩

theorem not_checks_of_run {as : List (Option Packet)}
    (hrun : (machine c).run new ops = some (s, as)) (hzero : s.occupied = 0) : ¬ Checks c s := by
  obtain ⟨s', as', r, hrun', hrep, -⟩ := exists_run hmax hbuckets hops hne
  obtain ⟨rfl, rfl⟩ := Prod.mk.inj (Option.some.inj (hrun.symm.trans hrun'))
  exact hrep.not_checks hbuckets hzero

end

theorem works_nil (hmax : 0 ≤ c.maxqueue) : Works c [] where
  index p hp := absurd hp List.not_mem_nil
  run := ⟨new, [], rfl, books_new hmax, Passes.refl _ _, fun _ => ⟨0, rfl, fun h => by cases h⟩⟩
  rounds := by
    intro os₁ o os₂ os₃ s₀ as₀ s₁ a s₂ as₂ b x hcut
    exact absurd hcut.symm (by simp)

/-- The bound must not be negative, and once there was an operation there must be buckets, every
packet must have one, and the queue must not be empty when it is changed. -/
theorem works_iff (c : Config) (ops : List SfqOp) :
    Works c ops ↔ 0 ≤ c.maxqueue ∧ (ops ≠ [] → 0 < c.buckets ∧
      (∀ p ∈ arrivals ops, Fits c p) ∧
      ∀ s as, (machine c).run new ops = some (s, as) → s.occupied ≠ 0) := by
  constructor
  · rintro ⟨hindex, ⟨s, as, hrun, hbooks, -, hchecks⟩, -⟩
    have hmax : 0 ≤ c.maxqueue := by
      refine le_trans ?_ hbooks.le
      rw [hbooks.occupied]
      exact Finset.sum_nonneg fun _ _ => Int.natCast_nonneg _
    refine ⟨hmax, fun hne => ?_⟩
    have hbuckets := pos_of_run hne hrun
    refine ⟨hbuckets, fun p hp => (inArray_which_iff hbuckets p).1 (hindex p hp), ?_⟩
    intro s' as' hrun' hzero
    obtain ⟨rfl, rfl⟩ := Prod.mk.inj (Option.some.inj (hrun.symm.trans hrun'))
    exact not_checks_of_run hmax hbuckets hindex hne hrun hzero (hchecks hzero)
  · rintro ⟨hmax, h⟩
    by_cases hne : ops = []
    · subst hne
      exact works_nil hmax
    obtain ⟨hbuckets, hfits, hzero⟩ := h hne
    have hops : ∀ p ∈ arrivals ops, InArray c (which c p) :=
      fun p hp => (inArray_which_iff hbuckets p).2 (hfits p hp)
    obtain ⟨s, as, r, hrun, hrep, hpasses⟩ := exists_run hmax hbuckets hops hne
    exact ⟨hops, ⟨s, as, hrun, hrep.books, hpasses, fun hz => absurd hz (hzero s as hrun)⟩,
      fairRounds hmax hbuckets hops⟩

/-- A packet went through and the queue is empty again; or two large addresses have a bucket
before the array. -/
theorem not_works_emptied_or_negative :
    ¬ Works ⟨40, 16⟩ [.enque ⟨0, 1, 2⟩, .deque] ∧
      ¬ Works ⟨40, 16⟩ [.enque ⟨0, 1073741825, 1073741826⟩] := by
  constructor
  · rintro ⟨hindex, ⟨s, as, hrun, -, -, hchecks⟩, -⟩
    have hzero : (((machine ⟨40, 16⟩).run new [.enque ⟨0, 1, 2⟩, .deque]).map
        fun x => x.1.occupied) = some 0 := by decide
    rw [hrun] at hzero
    have hoccupied : s.occupied = 0 := Option.some.inj hzero
    exact not_checks_of_run (by decide) (by decide) hindex (by simp) hrun hoccupied
      (hchecks hoccupied)
  · intro h
    exact absurd (h.index _ (List.mem_singleton_self _)) (by decide)

end Ns2.Sfq
