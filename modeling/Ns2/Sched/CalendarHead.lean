import Mathlib.Data.Nat.ModEq
import Ns2.Sched.CalendarBuckets

/-! The scan of `head` over one year of buckets. A bucket holds an event of the
day it is scanned for exactly when the difference to the clock passes the test,
so the first success, or else the least head of all buckets, is the front of
the queue. -/

namespace Ns2

open Nat

namespace CalendarScheduler

open ListScheduler

variable {K : Type*} [LinearOrder K] [Field K] [FloorRing K]
variable {k : ℕ} {c : CalendarScheduler K} {q r : List (Event K)} {b e : Event K} {s : YearScan K}
variable {i : ℕ} {t diff : K}

/-- The number of whole bucket widths up to time `t`. -/
def day (c : CalendarScheduler K) (t : K) : ℕ := ⌊t / c.width⌋₊

/-- The bucket scanned in round `k`. -/
def pos (c : CalendarScheduler K) (k : ℕ) : ℕ := (c.day c.calClock + k) % c.nbuckets

def frontOf (c : CalendarScheduler K) (i : ℕ) : Option (Event K) := (c.buckets i).list.head?

/-- The state of the scan when `k` buckets held no event of their day. -/
structure Scanned (c : CalendarScheduler K) (k : ℕ) (s : YearScan K) : Prop where
  i : s.i = c.pos k
  found : s.found = none
  least : ∀ m, s.minE = some m → ∃ l, s.l = some l ∧ c.frontOf l = some m
  le : ∀ j < k, ∀ b, c.frontOf (c.pos j) = some b → ∃ m, s.minE = some m ∧ m.time ≤ b.time
  late : ∀ j < k, ∀ b, c.frontOf (c.pos j) = some b → c.day b.time ≠ c.day c.calClock + j

theorem pos_inj (c : CalendarScheduler K) {j : ℕ} (hj : j < c.nbuckets) (hk : k < c.nbuckets)
    (h : c.pos j = c.pos k) : j = k :=
  ModEq.eq_of_lt_of_lt (Nat.ModEq.add_left_cancel' _ h) hj hk

theorem nextBucket_pos (c : CalendarScheduler K) (hn : 1 < c.nbuckets) (k : ℕ) :
    c.nextBucket (c.pos k) = c.pos (k + 1) := by
  have hlt : c.pos k < c.nbuckets := Nat.mod_lt _ (by omega)
  have hone : 1 % c.nbuckets = 1 := mod_eq_of_lt hn
  have hmod : c.pos (k + 1) = if c.nbuckets ≤ c.pos k + 1 then c.pos k + 1 - c.nbuckets
      else c.pos k + 1 := by
    rw [pos, ← add_assoc, add_mod_eq_ite, hone]
    rfl
  rw [hmod]
  unfold nextBucket
  split_ifs <;> omega

theorem Holds.frontOf_eq (h : Holds c q) (i : ℕ) :
    c.frontOf i = (q.filter fun e => c.hash e.time = i).head? := by
  rw [frontOf, h.filled.list]

theorem Holds.frontOf_mem (h : Holds c q) (hb : c.frontOf i = some b) :
    b ∈ q ∧ c.hash b.time = i := by
  rw [h.frontOf_eq] at hb
  simpa using List.mem_of_head? hb

theorem Holds.front_unique (h : Holds c (e :: r)) (hb : c.frontOf i = some b)
    (hle : b.time ≤ e.time) : b = e ∧ i = c.hash e.time := by
  obtain ⟨hmem, hi⟩ := h.frontOf_mem hb
  have hge : e.time ≤ b.time := by
    rcases List.mem_cons.1 hmem with rfl | hr
    · exact le_rfl
    · exact h.queue.sorted.head_le b hr
  have ht : b.time = e.time := le_antisymm hle hge
  rw [h.frontOf_eq, ← hi, ht] at hb
  refine ⟨?_, by rw [← hi, ht]⟩
  simpa using hb.symm

theorem Holds.front (h : Holds c (e :: r)) : c.frontOf (c.hash e.time) = some e := by
  rw [h.frontOf_eq]
  simp

variable [IsStrictOrderedRing K]

theorem hash_eq (h : Holds c q) (ht : 0 ≤ t) : c.hash t = c.day t % c.nbuckets :=
  calendarHash_eq h.width (by have := h.nbuckets; omega) ht

theorem Holds.lastbucket_eq (h : Holds c q) : c.lastbucket = c.pos 0 := by
  rw [h.lastbucket, hash_eq h h.clock]
  rfl

theorem day_cases (h : Holds c q) (hk : k < c.nbuckets) (hb : c.frontOf (c.pos k) = some b) :
    c.day b.time = c.day c.calClock + k ∨ c.day c.calClock + k + c.nbuckets ≤ c.day b.time := by
  obtain ⟨hmem, hhash⟩ := h.frontOf_mem hb
  rw [hash_eq h (h.nonneg b hmem)] at hhash
  have hday : c.day c.calClock ≤ c.day b.time :=
    Nat.floor_le_floor (div_le_div_of_nonneg_right (h.clock_le b hmem) h.width.le)
  obtain ⟨d, hd⟩ := Nat.exists_eq_add_of_le hday
  have hmod : d % c.nbuckets = k := by
    have : d ≡ k [MOD c.nbuckets] := Nat.ModEq.add_left_cancel' (c.day c.calClock) (hd ▸ hhash)
    rw [this, mod_eq_of_lt hk]
  rcases lt_or_ge d c.nbuckets with hlt | hge
  · rw [mod_eq_of_lt hlt] at hmod
    omega
  · have := mod_add_div d c.nbuckets
    have hdiv : 1 ≤ d / c.nbuckets := (one_le_div_iff (by omega)).2 hge
    have : c.nbuckets * 1 ≤ c.nbuckets * (d / c.nbuckets) := mul_le_mul_left _ hdiv
    omega

theorem day_mul_le (hw : 0 < c.width) (ht : 0 ≤ t) : c.day t * c.width ≤ t := by
  rw [← le_div_iff₀ hw]
  exact floor_le (by positivity)

theorem lt_day_mul (hw : 0 < c.width) (t : K) : t < (c.day t + 1) * c.width := by
  rw [← div_lt_iff₀ hw]
  exact lt_floor_add_one _

theorem due_iff (h : Holds c q) (hk : k < c.nbuckets) (hb : c.frontOf (c.pos k) = some b)
    (hlo : (k + 1) * c.width ≤ diff) (hhi : diff ≤ (k + c.nbuckets - 1) * c.width) :
    b.time - c.calClock < diff ↔ c.day b.time = c.day c.calClock + k := by
  have hmem := (h.frontOf_mem hb).1
  have h1 := day_mul_le h.width h.clock
  have h2 := lt_day_mul h.width c.calClock
  have h3 := day_mul_le h.width (h.nonneg b hmem)
  have h4 := lt_day_mul h.width b.time
  rcases day_cases h hk hb with hd | hd
  · refine iff_of_true ?_ hd
    rw [hd] at h4
    push_cast at h4
    linarith
  · refine iff_of_false ?_ ?_
    · have hd' : ((c.day c.calClock + k + c.nbuckets : ℕ) : K) * c.width ≤ c.day b.time * c.width :=
        mul_le_mul_of_nonneg_right (by exact_mod_cast hd) h.width.le
      push_cast at hd'
      rw [not_lt]
      linarith
    · have := h.nbuckets
      omega

/-- The jump to `found_l` is taken at the front of the queue. -/
def Found (c : CalendarScheduler K) (e : Event K) (s : YearScan K) : Prop :=
  s.found = some e ∧ s.l = some (c.hash e.time)

omit [IsStrictOrderedRing K] in
theorem scanned_zero (hi : s.i = c.pos 0) (hf : s.found = none) (hm : s.minE = none) :
    Scanned c 0 s where
  i := hi
  found := hf
  least m h := by rw [hm] at h; cases h
  le j hj := absurd hj (not_lt_zero j)
  late j hj := absurd hj (not_lt_zero j)

/-- The front of the queue is not due before the first bucket that holds an
event of its own day. -/
theorem Scanned.day_le (h : Holds c (e :: r)) (hs : Scanned c k s) :
    c.day c.calClock + k ≤ c.day e.time := by
  have hmem : e ∈ e :: r := List.mem_cons_self
  have hday : c.day c.calClock ≤ c.day e.time :=
    Nat.floor_le_floor (div_le_div_of_nonneg_right (h.clock_le e hmem) h.width.le)
  by_contra hlt
  have hfront : c.frontOf (c.pos (c.day e.time - c.day c.calClock)) = some e := by
    have hpos : c.pos (c.day e.time - c.day c.calClock) = c.hash e.time := by
      rw [hash_eq h (h.nonneg e hmem), pos, Nat.add_sub_cancel' hday]
    rw [hpos, h.front]
  refine hs.late _ ?_ e hfront ?_ <;> omega

omit [IsStrictOrderedRing K] in
theorem Scanned.next {s' : YearScan K} (hs : Scanned c k s) (hi : s'.i = c.pos (k + 1))
    (hf : s'.found = none)
    (hleast : ∀ m, s'.minE = some m → ∃ l, s'.l = some l ∧ c.frontOf l = some m)
    (hmono : ∀ m, s.minE = some m → ∃ m', s'.minE = some m' ∧ m'.time ≤ m.time)
    (hnew : ∀ b, c.frontOf (c.pos k) = some b →
      c.day b.time ≠ c.day c.calClock + k ∧ ∃ m, s'.minE = some m ∧ m.time ≤ b.time) :
    Scanned c (k + 1) s' where
  i := hi
  found := hf
  least := hleast
  le := by
    refine forall_lt_succ_right.2 ⟨fun j hj b hb => ?_, fun b hb => (hnew b hb).2⟩
    obtain ⟨m, hm, hmb⟩ := hs.le j hj b hb
    obtain ⟨m', hm', hle⟩ := hmono m hm
    exact ⟨m', hm', hle.trans hmb⟩
  late := forall_lt_succ_right.2 ⟨hs.late, fun b hb => (hnew b hb).1⟩

theorem Scanned.due (h : Holds c (e :: r)) (hs : Scanned c k s) (hb : c.frontOf (c.pos k) = some b)
    (hd : c.day b.time = c.day c.calClock + k) : b = e ∧ c.pos k = c.hash e.time := by
  refine h.front_unique hb (not_lt.1 fun hlt => ?_)
  have hday : c.day e.time ≤ c.day b.time :=
    Nat.floor_le_floor (div_le_div_of_nonneg_right hlt.le h.width.le)
  have hpos : c.hash e.time = c.pos k := by
    rw [hash_eq h (h.nonneg e List.mem_cons_self), pos, ← hd, le_antisymm hday (hd ▸ hs.day_le h)]
  have hfront := h.front
  rw [hpos, hb] at hfront
  exact hlt.ne (by rw [Option.some.inj hfront])

theorem calDequeue_spec (h : Holds c (e :: r)) (hs : Scanned c k s) (hk : k < c.nbuckets)
    (hlo : (k + 1) * c.width ≤ diff) (hhi : diff ≤ (k + c.nbuckets - 1) * c.width) :
    Found c e (c.calDequeue diff s) ∨ Scanned c (k + 1) (c.calDequeue diff s) := by
  have hn := h.nbuckets
  have hnext := nextBucket_pos c (by omega) k
  unfold calDequeue
  rw [if_neg (by simp [hs.found]), hs.i]
  cases hb : (c.buckets (c.pos k)).list with
  | nil =>
    have hnone : c.frontOf (c.pos k) = none := by rw [frontOf, hb]; rfl
    refine Or.inr (hs.next hnext hs.found hs.least (fun m hm => ⟨m, hm, le_rfl⟩) ?_)
    simp [hnone]
  | cons b rest =>
    have hfront : c.frontOf (c.pos k) = some b := by rw [frontOf, hb]; rfl
    have hdue := due_iff h hk hfront hlo hhi
    dsimp only
    split_ifs with hd hmin
    · obtain ⟨rfl, hi⟩ := hs.due h hfront (hdue.1 hd)
      exact Or.inl ⟨rfl, congrArg some hi⟩
    · refine Or.inr (hs.next hnext hs.found ?_ ?_ ?_)
      · rintro m ⟨⟩
        exact ⟨_, rfl, hfront⟩
      · intro m hm
        rw [hm] at hmin
        exact ⟨b, rfl, (of_decide_eq_true hmin).le⟩
      · intro x hx
        obtain rfl : b = x := Option.some.inj (hfront.symm.trans hx)
        exact ⟨mt hdue.2 hd, b, rfl, le_rfl⟩
    · refine Or.inr (hs.next hnext hs.found hs.least (fun m hm => ⟨m, hm, le_rfl⟩) ?_)
      intro x hx
      obtain rfl : b = x := Option.some.inj (hfront.symm.trans hx)
      cases hm : s.minE with
      | none => simp [hm] at hmin
      | some m => exact ⟨mt hdue.2 hd, m, rfl, by simpa [hm] using hmin⟩

omit [IsStrictOrderedRing K] in
theorem calDequeue_found (c : CalendarScheduler K) (diff : K) (hs : Found c e s) :
    Found c e (c.calDequeue diff s) := by
  unfold calDequeue
  rw [if_pos (by simp [hs.1])]
  exact hs

theorem yearLoop_spec (h : Holds c (e :: r)) {fuel : ℕ} (hk : 2 ≤ k) (hkn : k < c.nbuckets)
    (hfuel : c.nbuckets ≤ fuel + k) (hs : Found c e s ∨ Scanned c k s) :
    ∃ s', c.yearLoop (c.pos (c.nbuckets - 1)) fuel s = some s' ∧
      (Found c e s' ∨ Scanned c (c.nbuckets - 1) s') := by
  induction fuel generalizing k s with
  | zero => omega
  | succ fuel ih =>
    rw [yearLoop]
    rcases hs with hs | hs
    · exact ⟨s, if_pos (Or.inl (by simp [hs.1])), Or.inl hs⟩
    by_cases hlast : k = c.nbuckets - 1
    · refine ⟨s, if_pos (Or.inr (by rw [hs.i, hlast])), Or.inr (hlast ▸ hs)⟩
    · have hne : s.i ≠ c.pos (c.nbuckets - 1) := by
        rw [hs.i]
        exact fun hp => hlast (pos_inj c hkn (by omega) hp)
      rw [if_neg (by simp [hs.found, hne])]
      have hn := h.nbuckets
      have hk1 : ((k + 1 : ℕ) : K) ≤ (c.nbuckets : K) := by exact_mod_cast hkn
      have hk2 : (2 : K) ≤ (k : K) := by exact_mod_cast hk
      have hw := h.width
      refine ih (by omega) (by omega) (by omega) (calDequeue_spec h hs hkn ?_ ?_)
      · rw [h.diff2, mul_comm c.width]
        push_cast at hk1
        exact mul_le_mul_of_nonneg_right hk1 hw.le
      · rw [h.diff2, mul_comm c.width]
        exact mul_le_mul_of_nonneg_right (by linarith) hw.le

theorem Holds.exists_pos (h : Holds c (e :: r)) : ∃ j < c.nbuckets, c.pos j = c.hash e.time := by
  have hmem : e ∈ e :: r := List.mem_cons_self
  have hn := h.nbuckets
  have hday : c.day c.calClock ≤ c.day e.time :=
    Nat.floor_le_floor (div_le_div_of_nonneg_right (h.clock_le e hmem) h.width.le)
  refine ⟨(c.day e.time - c.day c.calClock) % c.nbuckets, Nat.mod_lt _ (by omega), ?_⟩
  rw [hash_eq h (h.nonneg e hmem), pos, Nat.add_mod_mod, Nat.add_sub_cancel' hday]

/-- Of the event of the last bucket and the least head before it, the front of
the queue is chosen. -/
theorem selectLast_spec (h : Holds c (e :: r)) (hs : Found c e s ∨ Scanned c (c.nbuckets - 1) s) :
    c.selectLast s = (some e, some (c.hash e.time)) := by
  unfold selectLast
  rcases hs with ⟨hf, hl⟩ | hs
  · rw [hf, hl]
  have hn := h.nbuckets
  obtain ⟨j, hj, hpos⟩ := h.exists_pos
  rw [hs.found, hs.i]
  dsimp only
  rcases (le_sub_one_of_lt hj).lt_or_eq with hlt | rfl
  · obtain ⟨m, hm, hle⟩ := hs.le j hlt e (by rw [hpos, h.front])
    obtain ⟨l, hl, hfront⟩ := hs.least m hm
    obtain ⟨rfl, rfl⟩ := h.front_unique hfront hle
    rw [hm, hl]
    dsimp only
    rw [if_pos]
    rw [Option.all_eq_true]
    intro x hx
    refine decide_eq_true (not_le.1 fun hxm => ?_)
    have hlast := (h.front_unique hx hxm).2
    rw [← hpos] at hlast
    have := pos_inj c (by omega) hj hlast
    omega
  · have hfront : (c.buckets (c.pos (c.nbuckets - 1))).list.head? = some e := by
      rw [hpos]; exact h.front
    rw [hfront, hpos]
    cases hm : s.minE with
    | none => rfl
    | some m =>
      obtain ⟨l, -, hml⟩ := hs.least m hm
      have hem : e.time ≤ m.time := by
        rcases List.mem_cons.1 (h.frontOf_mem hml).1 with rfl | hr
        · exact le_rfl
        · exact h.queue.sorted.head_le m hr
      dsimp only
      rw [Option.all_some, if_neg]
      simpa using hem

omit [IsStrictOrderedRing K] in
theorem head_nil (h : Holds c []) : c.head = some (c, none) := by
  have hsize : c.qsize = 0 := h.filled.size
  unfold head
  rw [if_pos hsize]

theorem head_cons (h : Holds c (e :: r)) :
    ∃ c', c.head = some (c', some e) ∧ Holds c' (e :: r) ∧ c'.calClock = e.time := by
  have hn := h.nbuckets
  have hw := h.width
  have hn4 : (4 : K) ≤ c.nbuckets := by exact_mod_cast hn
  have hsize : c.qsize ≠ 0 := by
    rw [h.filled.size, List.length_cons]
    omega
  have hdec : (if c.lastbucket ≠ 0 then c.lastbucket - 1 else c.nbuckets - 1) =
      c.pos (c.nbuckets - 1) := by
    have hnext := nextBucket_pos c (by omega) (c.nbuckets - 1)
    have hmod : c.pos (c.nbuckets - 1 + 1) = c.pos 0 := by
      rw [pos, Nat.sub_add_cancel (Nat.one_le_of_lt hn), Nat.add_mod_right]
      rfl
    have hlt : c.pos (c.nbuckets - 1) < c.nbuckets := Nat.mod_lt _ (Nat.zero_lt_of_lt hn)
    rw [hmod, ← h.lastbucket_eq, nextBucket] at hnext
    split_ifs at hnext ⊢ with h1 h2 <;> omega
  set s : YearScan K := ⟨c.lastbucket, none, none, c.headSearch, none⟩ with hs
  have h0 : Scanned c 0 s := scanned_zero h.lastbucket_eq rfl rfl
  have h1 : Found c e (c.calDequeue c.diff0 s) ∨ Scanned c 1 (c.calDequeue c.diff0 s) := by
    refine calDequeue_spec h h0 (by omega) ?_ ?_
    · rw [h.diff0]; push_cast; nlinarith
    · rw [h.diff0]; push_cast; nlinarith
  have h2 : Found c e (c.calDequeue c.diff1 (c.calDequeue c.diff0 s)) ∨
      Scanned c 2 (c.calDequeue c.diff1 (c.calDequeue c.diff0 s)) := by
    rcases h1 with h1 | h1
    · exact Or.inl (calDequeue_found c _ h1)
    refine calDequeue_spec h h1 (by omega) ?_ ?_
    · rw [h.diff1]; push_cast; nlinarith
    · rw [h.diff1]; push_cast; nlinarith
  obtain ⟨s', hs', hres⟩ := yearLoop_spec h le_rfl (by omega) (le_add_right c.nbuckets 2) h2
  refine ⟨{ c with headSearch := s'.headSearch, lastbucket := c.hash e.time, calClock := e.time },
    ?_, ?_, rfl⟩
  · unfold head
    rw [if_neg hsize]
    dsimp only
    rw [hdec, ← hs, hs', Option.bind_some, selectLast_spec h hres]
  · exact ⟨h.filled, h.queue, h.nonneg, h.width, h.nbuckets, h.nonneg e List.mem_cons_self,
      fun x hx => by
        rcases List.mem_cons.1 hx with rfl | hx
        · exact le_rfl
        · exact h.queue.sorted.head_le x hx,
      rfl, h.diff0, h.diff1, h.diff2, h.bot⟩

end CalendarScheduler

end Ns2
