import Mathlib.Algebra.Order.Floor.Semifield
import Mathlib.Tactic.Positivity
import Mathlib.Tactic.Ring
import Ns2.Sched.Calendar

/-! The buckets of the calendar hold one key-sorted list, cut by the hash of the
time: insertion at either end of a run of equal times, and the rebuilding that
`resize` does, keep that list. -/

namespace Ns2

namespace CalendarScheduler

open ListScheduler List

variable {K : Type*}
variable {e : Event K} {l g q : List (Event K)} {c : CalendarScheduler K} {newsize : ℕ}

/-- No entry of `l` has the time of `e`. -/
def NewTime (e : Event K) (l : List (Event K)) : Prop := ∀ x ∈ l, x.time ≠ e.time

theorem newTime_cons {x : Event K} :
    NewTime e (x :: l) ↔ x.time ≠ e.time ∧ NewTime e l := forall_mem_cons

theorem newTime_filter (h : K → ℕ) (g : List (Event K)) :
    NewTime e (g.filter fun x => h x.time = h e.time) ↔ NewTime e g := by
  refine ⟨fun hn x hx hxe => hn x ?_ hxe, fun hn x hx => hn x (mem_of_mem_filter hx)⟩
  simp [hx, hxe]

variable [LinearOrder K]

instance (e : Event K) (l : List (Event K)) : Decidable (NewTime e l) :=
  inferInstanceAs (Decidable (∀ x ∈ l, x.time ≠ e.time))

/-- The number of distinct times. -/
def distinct (l : List (Event K)) : ℕ := (l.map Event.time).toFinset.card

theorem distinct_perm {l' : List (Event K)} (h : l.Perm l') : distinct l = distinct l' := by
  unfold distinct
  rw [toFinset_eq_of_perm _ _ (h.map Event.time)]

theorem distinct_cons (e : Event K) (l : List (Event K)) :
    distinct (e :: l) = distinct l + if NewTime e l then 1 else 0 := by
  unfold distinct
  rw [map_cons, toFinset_cons]
  split_ifs with h
  · rw [Finset.card_insert_of_notMem]
    simpa [NewTime] using h
  · rw [Finset.insert_eq_of_mem, Nat.add_zero]
    simpa [NewTime] using h

theorem insertForward_eq (h : KeySorted Event.time l) (hle : ∃ x ∈ l, e.time ≤ x.time) :
    insertForward e l = some (insertBefore Event.time e l, decide (NewTime e l)) := by
  induction l with
  | nil => simp at hle
  | cons b r ih =>
    rw [insertForward, insertBefore_cons]
    by_cases hb : b.time < e.time
    · have hle : ∃ x ∈ r, e.time ≤ x.time := by
        obtain ⟨x, hx, hxe⟩ := hle
        rcases mem_cons.1 hx with rfl | hx
        · exact absurd hb hxe.not_gt
        · exact ⟨x, hx, hxe⟩
      rw [if_pos hb, if_neg hb.not_ge, ih h.tail hle]
      simp [newTime_cons, hb.ne]
    · rw [if_neg hb, if_pos (not_lt.1 hb)]
      have hnew : NewTime e (b :: r) ↔ b.time ≠ e.time := by
        refine ⟨fun hn => hn b (by simp), fun hne x hx => ?_⟩
        rcases mem_cons.1 hx with rfl | hx
        · exact hne
        · exact ((lt_of_le_of_ne (not_lt.1 hb) hne.symm).trans_le (h.head_le x hx)).ne'
      simp [hnew]

theorem le_getLast {b : Event K} {r : List (Event K)} (h : KeySorted Event.time (b :: r)) :
    ∀ x ∈ b :: r, x.time ≤ ((b :: r).getLast (cons_ne_nil _ _)).time := by
  intro x hx
  have hsplit := dropLast_append_getLast (cons_ne_nil b r)
  rw [← hsplit] at hx h
  rcases mem_append.1 hx with hx | hx
  · exact (pairwise_append.1 h).2.2 x hx _ (mem_singleton_self _)
  · rw [mem_singleton.1 hx]

theorem distinct_le_one {a b : Event K} (h : KeySorted Event.time l) (ha : l.head? = some a)
    (hb : l.getLast? = some b) (hle : b.time ≤ a.time) : distinct l ≤ 1 := by
  cases l with
  | nil => cases ha
  | cons x r =>
    obtain rfl : x = a := by simpa using ha
    rw [getLast?_eq_getLast_of_ne_nil (cons_ne_nil _ _)] at hb
    have hlast := le_getLast h
    rw [Option.some.inj hb] at hlast
    have heq : ∀ y ∈ x :: r, y.time = x.time := by
      intro y hy
      refine le_antisymm ((hlast y hy).trans hle) ?_
      rcases mem_cons.1 hy with rfl | hy
      · exact le_rfl
      · exact h.head_le y hy
    refine Finset.card_le_one.2 fun s hs t ht => ?_
    rw [mem_toFinset, mem_map] at hs ht
    obtain ⟨y, hy, rfl⟩ := hs
    obtain ⟨z, hz, rfl⟩ := ht
    rw [heq y hy, heq z hz]

theorem insert2List_eq (h : KeySorted Event.time l) (e : Event K) :
    insert2List e l = some (insertBefore Event.time e l, decide (NewTime e l)) := by
  cases l with
  | nil => simp [insert2List, NewTime, insertBefore]
  | cons b r =>
    rw [insert2List]
    have hmem : (b :: r).getLast (cons_ne_nil _ _) ∈ b :: r := getLast_mem _
    split_ifs with hl
    · have hlt : ∀ x ∈ b :: r, x.time < e.time := by
        intro x hx
        exact (le_getLast h x hx).trans_lt hl
      have hnew : NewTime e (b :: r) := fun x hx => (hlt x hx).ne
      have h1 : (b :: r).filter (fun x => x.time < e.time) = b :: r := by
        rw [filter_eq_self]; exact fun x hx => by simpa using hlt x hx
      have h2 : (b :: r).filter (fun x => e.time ≤ x.time) = [] := by
        rw [filter_eq_nil_iff]; exact fun x hx => by simpa using hlt x hx
      rw [insertBefore_eq h, h1, h2]
      simp [hnew, (hlt b (by simp)).ne]
    · exact insertForward_eq h ⟨_, hmem, not_lt.1 hl⟩

theorem insertBackward_eq {r : List (Event K)} (h : KeySorted Event.time r.reverse)
    (hle : ∃ x ∈ r, x.time ≤ e.time) :
    ∃ steps, insertBackward e r =
      some (steps, (insertAfter Event.time e r.reverse).reverse, decide (NewTime e r)) := by
  induction r with
  | nil => simp at hle
  | cons a r ih =>
    rw [reverse_cons] at h
    obtain ⟨hr, -, hlast⟩ := pairwise_append.1 h
    have hlast : ∀ x ∈ r, x.time ≤ a.time := fun x hx => hlast x (by simpa using hx) a (by simp)
    rw [insertBackward, reverse_cons, insertAfter_eq h]
    by_cases ha : e.time < a.time
    · have hle : ∃ x ∈ r, x.time ≤ e.time := by
        obtain ⟨x, hx, hxe⟩ := hle
        rcases mem_cons.1 hx with rfl | hx
        · exact absurd ha hxe.not_gt
        · exact ⟨x, hx, hxe⟩
      obtain ⟨steps, hs⟩ := ih hr hle
      refine ⟨steps + 1, ?_⟩
      rw [if_pos ha, hs, insertAfter_eq hr]
      simp [newTime_cons, ha, ha.not_ge, ha.ne']
    · refine ⟨0, ?_⟩
      have ha := not_lt.1 ha
      have h1 : (r.reverse ++ [a]).filter (fun x => x.time ≤ e.time) = r.reverse ++ [a] := by
        rw [filter_eq_self]
        intro x hx
        rcases mem_append.1 hx with hx | hx
        · simpa using (hlast x (by simpa using hx)).trans ha
        · simpa [mem_singleton.1 hx] using ha
      have h2 : (r.reverse ++ [a]).filter (fun x => e.time < x.time) = [] := by
        rw [filter_eq_nil_iff]
        intro x hx
        rcases mem_append.1 hx with hx | hx
        · simpa using (hlast x (by simpa using hx)).trans ha
        · simpa [mem_singleton.1 hx] using ha
      have hnew : NewTime e (a :: r) ↔ a.time < e.time := by
        refine ⟨fun hn => lt_of_le_of_ne ha (hn a (by simp)), fun hlt x hx => ?_⟩
        rcases mem_cons.1 hx with rfl | hx
        · exact hlt.ne
        · exact ((hlast x hx).trans_lt hlt).ne
      rw [if_neg ha.not_gt, h1, h2]
      simp [hnew]

theorem insertList_eq (h : KeySorted Event.time l) (e : Event K) :
    ∃ searches, insertList e l =
      some (searches, insertAfter Event.time e l, decide (NewTime e l)) := by
  cases l with
  | nil => exact ⟨0, by simp [insertList, insertAfter, NewTime]⟩
  | cons b r =>
    rw [insertList]
    split_ifs with hb
    · have hnew : NewTime e (b :: r) := by
        refine newTime_cons.2 ⟨hb.ne', fun x hx => ?_⟩
        exact (hb.trans_le (h.head_le x hx)).ne'
      exact ⟨1, by rw [insertAfter_cons, if_pos hb, decide_eq_true hnew]⟩
    · have hrev : KeySorted Event.time (b :: r).reverse.reverse := by rwa [reverse_reverse]
      obtain ⟨steps, hs⟩ := insertBackward_eq hrev ⟨b, by simp, not_lt.1 hb⟩
      refine ⟨1 + steps, ?_⟩
      have hnew : NewTime e (b :: r).reverse ↔ NewTime e (b :: r) := by
        simp [NewTime, or_comm]
      rw [hs, reverse_reverse, Option.map_some]
      dsimp only
      rw [reverse_reverse, decide_eq_decide.2 hnew]

/-- Buckets with their counters and totals that hold the key-sorted list `g`, cut
by the hash `h` of the time. -/
structure Cut (h : K → ℕ) (buckets : ℕ → Bucket K) (stat size : ℤ) (g : List (Event K)) : Prop where
  sorted : KeySorted Event.time g
  list : ∀ i, (buckets i).list = g.filter fun e => h e.time = i
  count : ∀ i, (buckets i).count = distinct (g.filter fun e => h e.time = i)
  stat : stat = distinct g
  size : size = g.length

theorem Cut.add {h : K → ℕ} {b : ℕ → Bucket K} {stat size : ℤ} {g' : List (Event K)}
    (hc : Cut h b stat size g) (e : Event K) (hs : KeySorted Event.time g') (hp : g'.Perm (e :: g))
    (hother : ∀ i, i ≠ h e.time →
      g'.filter (fun x => h x.time = i) = g.filter fun x => h x.time = i) :
    Cut h (Function.update b (h e.time) ⟨g'.filter fun x => h x.time = h e.time,
        (b (h e.time)).count + if NewTime e g then 1 else 0⟩)
      (stat + if NewTime e g then 1 else 0) (size + 1) g' where
  sorted := hs
  list i := by
    by_cases hi : i = h e.time
    · rw [hi, Function.update_self]
    · rw [Function.update_of_ne hi, hc.list, hother i hi]
  count i := by
    by_cases hi : i = h e.time
    · have hd : distinct (g'.filter fun x => h x.time = h e.time) =
          distinct (e :: g.filter fun x => h x.time = h e.time) :=
        distinct_perm (by simpa using hp.filter fun x => decide (h x.time = h e.time))
      rw [distinct_cons, if_congr (newTime_filter h g) rfl rfl] at hd
      rw [hi, Function.update_self, hd, hc.count]
      split_ifs <;> simp
    · rw [Function.update_of_ne hi, hc.count, hother i hi]
  stat := by
    rw [distinct_perm hp, distinct_cons, hc.stat]
    split_ifs <;> simp
  size := by
    rw [hc.size, hp.length_eq]
    simp

theorem Cut.nil (h : K → ℕ) : Cut h (fun _ => ⟨[], 0⟩) 0 0 [] where
  sorted := Pairwise.nil
  list _ := rfl
  count _ := rfl
  stat := rfl
  size := rfl

variable [Field K] [FloorRing K]

def Filled (c : CalendarScheduler K) (g : List (Event K)) : Prop :=
  Cut c.hash c.buckets c.statQsize c.qsize g

/-- `c'` differs from `c` in the buckets and their totals only. -/
def SameRest (c c' : CalendarScheduler K) : Prop :=
  c' = { c with buckets := c'.buckets, statQsize := c'.statQsize, qsize := c'.qsize }

omit [LinearOrder K] [Field K] [FloorRing K] in
theorem SameRest.trans {a b : CalendarScheduler K} (h : SameRest a b) (h' : SameRest b c) :
    SameRest a c := by
  unfold SameRest at *
  rw [h', h]

theorem insert2_spec (h : Filled c g) (e : Event K) :
    ∃ c', c.insert2 e = some c' ∧ Filled c' (insertBefore Event.time e g) ∧ SameRest c c' := by
  have hother : ∀ i, i ≠ c.hash e.time →
      (insertBefore Event.time e g).filter (fun x => c.hash x.time = i) =
        g.filter fun x => c.hash x.time = i := by
    intro i hi
    rw [filter_insertBefore h.sorted, if_neg]
    simpa using hi.symm
  have hadd := h.add e (h.sorted.insertBefore e) (insertBefore_perm e g) hother
  have hstep : c.insert2 e = some { c.setBucket (c.hash e.time)
      ⟨(insertBefore Event.time e g).filter fun x => c.hash x.time = c.hash e.time,
        (c.buckets (c.hash e.time)).count + if NewTime e g then 1 else 0⟩ with
      statQsize := c.statQsize + if NewTime e g then 1 else 0, qsize := c.qsize + 1 } := by
    rw [insert2, h.list, insert2List_eq (h.sorted.filter _), filter_insertBefore h.sorted]
    simp only [Option.map_some, decide_true, if_true, decide_eq_true_eq,
      if_congr (newTime_filter c.hash g) rfl rfl]
  exact ⟨_, hstep, hadd, rfl⟩

theorem foldlM_insert2_spec (h : Filled c g) (xs : List (Event K)) :
    ∃ c', xs.foldlM insert2 c = some c' ∧
      Filled c' (xs.foldl (fun g e => insertBefore Event.time e g) g) ∧ SameRest c c' := by
  induction xs generalizing c g with
  | nil => exact ⟨c, rfl, h, rfl⟩
  | cons e xs ih =>
    obtain ⟨c₁, h₁, hf₁, hs₁⟩ := insert2_spec h e
    obtain ⟨c', h', hf', hs'⟩ := ih hf₁
    refine ⟨c', ?_, hf', hs₁.trans hs'⟩
    rw [foldlM_cons, h₁]
    exact h'

variable [IsStrictOrderedRing K]

theorem calendarHash_eq {w t : K} (hw : 0 < w) {n : ℕ} (hn : 0 < n) (ht : 0 ≤ t) :
    calendarHash w n t = ⌊t / w⌋₊ % n := by
  have hx : 0 ≤ t / w := by positivity
  have hxn : 0 ≤ t / w / n := by positivity
  have hf : fmod (t / w) (n : K) = t / w - ((n * (⌊t / w⌋₊ / n) : ℕ) : ℤ) := by
    rw [fmod, trunc, if_pos hxn, ← Int.natCast_floor_eq_floor hxn, Nat.floor_div_natCast]
    push_cast
    rfl
  have hle : ((n * (⌊t / w⌋₊ / n) : ℕ) : ℤ) ≤ ⌊t / w⌋ := by
    rw [← Int.natCast_floor_eq_floor hx]
    exact_mod_cast Nat.mul_div_le _ _
  have hpos : 0 ≤ t / w - (((n * (⌊t / w⌋₊ / n) : ℕ) : ℤ) : K) :=
    sub_nonneg.2 (Int.le_floor.1 hle)
  rw [calendarHash, hf, trunc, if_pos hpos, Int.floor_sub_intCast,
    ← Int.natCast_floor_eq_floor hx, Nat.mod_eq_sub_mul_div]
  omega

theorem hash_lt (hw : 0 < c.width) (hn : 0 < c.nbuckets) {t : K} (ht : 0 ≤ t) :
    c.hash t < c.nbuckets := by
  rw [hash, calendarHash_eq hw hn ht]
  exact Nat.mod_lt _ hn

theorem rebuild_spec (h : Filled c g) (hw : 0 < c.width) (hn : 0 < c.nbuckets)
    (hg : ∀ e ∈ g, 0 ≤ e.time) (newsize : ℕ) (bwidth start : K) :
    ∃ c' d, c.rebuild newsize bwidth start = some c' ∧ Filled c' g ∧
      SameRest (c.reinit newsize bwidth start) d ∧
      c' = { d with headSearch := 0, insertSearch := 0, roundNum := 0 } := by
  set old := (range c.nbuckets).flatMap fun i => (c.buckets i).list.reverse with hold
  obtain ⟨d, hd, hf, hs⟩ := foldlM_insert2_spec (c := c.reinit newsize bwidth start) (Cut.nil _) old
  have hrev : old.reverse = (range c.nbuckets).reverse.flatMap fun i =>
      g.filter fun e => c.hash e.time = i := by
    simp only [hold, h.list, reverse_flatMap, Function.comp_def, reverse_reverse]
  have hg' : old.foldl (fun g e => insertBefore Event.time e g) [] = g := by
    rw [← foldr_reverse, hrev]
    refine h.sorted.foldr_insertBefore_eq fun k => ?_
    refine runs_flatMap_groups (fun t => c.hash t) ?_ (fun e he => ?_) k
    · exact nodup_reverse.2 nodup_range
    · simpa using hash_lt hw hn (hg e he)
  rw [hg'] at hf
  refine ⟨_, d, ?_, ?_, hs, rfl⟩
  · rw [rebuild, ← hold, hd]
    rfl
  · exact ⟨hf.sorted, hf.list, hf.count, hf.stat, hf.size⟩

/-- What the scheduler keeps: the buckets hold the list queue `q`, no event is
due before the clock, and `lastbucket` is the bucket of the clock. -/
structure Holds (c : CalendarScheduler K) (q : List (Event K)) : Prop where
  filled : Filled c q
  queue : Queue q
  nonneg : ∀ e ∈ q, 0 ≤ e.time
  width : 0 < c.width
  nbuckets : 4 ≤ c.nbuckets
  clock : 0 ≤ c.calClock
  clock_le : ∀ e ∈ q, c.calClock ≤ e.time
  lastbucket : c.lastbucket = c.hash c.calClock
  diff0 : c.diff0 = c.width * c.nbuckets / 2
  diff1 : c.diff1 = c.width * c.nbuckets / 2 + c.width
  diff2 : c.diff2 = c.width * c.nbuckets
  bot : c.botThreshold = (c.nbuckets / 2 : ℕ) - 2

omit [IsStrictOrderedRing K] in
theorem Holds.stats (h : Holds c q) (timeToNewwidth headSearch insertSearch roundNum : ℕ)
    (gapNum : ℤ) (lastTime avgGap : K) :
    Holds { c with
      timeToNewwidth := timeToNewwidth, headSearch := headSearch, insertSearch := insertSearch,
      roundNum := roundNum, gapNum := gapNum, lastTime := lastTime, avgGap := avgGap } q :=
  ⟨h.filled, h.queue, h.nonneg, h.width, h.nbuckets, h.clock, h.clock_le, h.lastbucket, h.diff0,
    h.diff1, h.diff2, h.bot⟩

theorem newwidth_spec (h : Holds c q) (hn : 0 < newsize) :
    ∃ w n, c.newwidth newsize = some (w, { c with timeToNewwidth := n }) ∧ 0 < w := by
  obtain ⟨n, hc⟩ : ∃ n, (if c.adjustNewWidthInterval ≠ 0 then
      { c with timeToNewwidth := c.adjustNewWidthInterval } else c) =
      { c with timeToNewwidth := n } := by
    split_ifs
    · exact ⟨_, rfl⟩
    · exact ⟨c.timeToNewwidth, rfl⟩
  unfold newwidth
  rw [hc]
  dsimp only
  split_ifs with hgap hcount
  · exact ⟨_, n, rfl, by linarith [hgap.2]⟩
  · exact ⟨_, n, rfl, h.width⟩
  · set i := maxBucket { c with timeToNewwidth := n }
    rw [h.filled.count] at hcount ⊢
    rw [h.filled.list]
    set l := q.filter fun e => c.hash e.time = i
    have hl : l ≠ [] := by
      intro hnil
      rw [hnil] at hcount
      exact hcount (by simp [distinct])
    obtain ⟨a, ha⟩ := Option.ne_none_iff_exists'.1 (mt head?_eq_none_iff.1 hl)
    obtain ⟨b, hb⟩ := Option.ne_none_iff_exists'.1 (mt getLast?_eq_none_iff.1 hl)
    have hnw : 0 < b.time - a.time := by
      by_contra hle
      have : distinct l ≤ 1 := distinct_le_one (h.filled.sorted.filter _) ha hb (by linarith)
      omega
    have hmin : (0 : K) < ((min (newsize : ℤ) (distinct l) : ℤ) : K) := by
      have : 0 < min (newsize : ℤ) (distinct l) := by omega
      exact_mod_cast this
    rw [ha, hb]
    dsimp only
    rw [if_pos hnw]
    exact ⟨_, n, rfl, by positivity⟩

theorem Holds.rebuild (h : Holds c q) (hn : 4 ≤ newsize) {bwidth : K} (hw : 0 < bwidth) :
    ∃ c', c.rebuild newsize bwidth c.calClock = some c' ∧ Holds c' q ∧ c'.calClock = c.calClock := by
  have hnb := h.nbuckets
  obtain ⟨c', d, hc', hf, hd, rfl⟩ :=
    rebuild_spec h.filled h.width (by omega) h.nonneg newsize bwidth c.calClock
  rw [hd] at hf hc'
  refine ⟨_, hc', ?_, rfl⟩
  exact ⟨hf, h.queue, h.nonneg, hw, hn, h.clock, h.clock_le, rfl, rfl, rfl, rfl, rfl⟩

theorem searchRatio_pos (c : CalendarScheduler K) : 0 < c.searchRatio := by
  have hcast : ∀ n : ℕ, n ≠ 0 → (0 : K) < n := fun n hn => by exact_mod_cast Nat.pos_of_ne_zero hn
  unfold searchRatio
  dsimp only
  split_ifs with hi hh
  · exact div_pos (hcast _ hh) (hcast _ hi)
  · exact div_pos one_pos (hcast _ hi)
  · exact hcast _ (by assumption)
  · exact one_pos

theorem resize_spec (h : Holds c q) {sqrt : K → K} (hsqrt : ∀ x, 0 < x → 0 < sqrt x)
    (hn : 0 < newsize) :
    ∃ c', c.resize sqrt newsize c.calClock = some c' ∧ Holds c' q ∧ c'.calClock = c.calClock := by
  obtain ⟨w, n, hnw, hw⟩ := newwidth_spec h hn
  have hn' : Holds { c with timeToNewwidth := n } q := h.stats n _ _ _ _ _ _
  unfold resize
  by_cases hsize : newsize = c.nbuckets
  · rw [if_pos hsize]
    have hsize4 : 4 ≤ newsize := hsize ▸ h.nbuckets
    dsimp only
    split_ifs
    · exact ⟨_, rfl, h.stats (c.timeToNewwidth - 1) 0 0 0 _ _ _, rfl⟩
    · rw [hnw]
      exact hn'.rebuild hsize4 hw
    · exact h.rebuild hsize4 (mul_pos (hsqrt _ c.searchRatio_pos) h.width)
  · rw [if_neg hsize, hnw]
    have hsize4 : 4 ≤ if newsize < 4 then 4 else newsize := by split_ifs <;> omega
    exact hn'.rebuild hsize4 hw

end CalendarScheduler

end Ns2
