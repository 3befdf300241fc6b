import Mathlib.Analysis.Real.Sqrt
import Ns2.Sched.CalendarHead

/-! The calendar queue answers every sequence of operations as the list
scheduler does, through all its changes of bucket count and width. -/

namespace Ns2

open Option Function

namespace CalendarScheduler

open ListScheduler

variable {K : Type*} [LinearOrder K]
variable {e : Event K} {c : CalendarScheduler K} {q : List (Event K)} {sqrt : K → K}

theorem distinct_eq_zero {l : List (Event K)} : distinct l = 0 ↔ l = [] := by
  simp [distinct]

theorem newTime_iff_head {l : List (Event K)} (h : KeySorted Event.time (e :: l)) :
    NewTime e l ↔ (l.head?.all fun y => y.time ≠ e.time) = true := by
  cases l with
  | nil => simp [NewTime]
  | cons y l =>
    rw [List.head?_cons, all_some, decide_eq_true_eq]
    refine ⟨fun hn => hn y List.mem_cons_self, fun hy x hx => ?_⟩
    have hlt : e.time < y.time := lt_of_le_of_ne (h.head_le y List.mem_cons_self) hy.symm
    rcases List.mem_cons.1 hx with rfl | hx
    · exact hy
    · exact (hlt.trans_le (h.tail.head_le x hx)).ne'

/-- The neighbours `cancel` looks at on the circular list decide whether the time
goes away with the event. -/
theorem newTime_iff_neighbours {before after : List (Event K)}
    (h : KeySorted Event.time (before ++ e :: after)) :
    NewTime e (before ++ after) ↔
      ((after ++ before).head?.all fun x => x.time ≠ e.time) = true ∧
        ((after ++ before).getLast?.all fun x => x.time ≠ e.time) = true := by
  constructor
  · intro hn
    constructor
    · rw [all_eq_true]
      intro x hx
      exact decide_eq_true (hn x (by simpa [or_comm] using List.mem_of_head? hx))
    · rw [all_eq_true]
      intro x hx
      exact decide_eq_true (hn x (by simpa [or_comm] using List.mem_of_getLast? hx))
  · rintro ⟨hnext, hprev⟩
    obtain ⟨hb, ha, hba⟩ := List.pairwise_append.1 h
    have hafter : NewTime e after := by
      rw [newTime_iff_head ha]
      cases after with
      | nil => rfl
      | cons y r => exact hnext
    have hbefore : NewTime e before := by
      intro x hx
      rcases List.eq_nil_or_concat before with rfl | ⟨init, last, rfl⟩
      · cases hx
      rw [List.concat_eq_append] at *
      have hne : last.time ≠ e.time := by simpa using hprev
      have hlast : last.time < e.time :=
        lt_of_le_of_ne (hba last (by simp) e List.mem_cons_self) hne
      rcases List.mem_append.1 hx with hx | hx
      · exact (((List.pairwise_append.1 hb).2.2 x hx last (by simp)).trans_lt hlast).ne
      · rwa [List.mem_singleton.1 hx]
    intro x hx
    rcases List.mem_append.1 hx with hx | hx
    · exact hbefore x hx
    · exact hafter x hx

theorem Cut.remove {h : K → ℕ} {b : ℕ → Bucket K} {stat size : ℤ} {g g' : List (Event K)}
    (hc : Cut h b stat size g) (hs : KeySorted Event.time g') (hp : g.Perm (e :: g'))
    (hother : ∀ i, i ≠ h e.time →
      g'.filter (fun x => h x.time = i) = g.filter fun x => h x.time = i) :
    Cut h (Function.update b (h e.time) ⟨g'.filter fun x => h x.time = h e.time,
        (b (h e.time)).count - if NewTime e g' then 1 else 0⟩)
      (stat - if NewTime e g' then 1 else 0) (size - 1) g' where
  sorted := hs
  list i := by
    by_cases hi : i = h e.time
    · rw [hi, update_self]
    · rw [update_of_ne hi, hc.list, hother i hi]
  count i := by
    by_cases hi : i = h e.time
    · have hd : distinct (g.filter fun x => h x.time = h e.time) =
          distinct (e :: g'.filter fun x => h x.time = h e.time) :=
        distinct_perm (by simpa using hp.filter fun x => decide (h x.time = h e.time))
      rw [distinct_cons, if_congr (newTime_filter h g') rfl rfl] at hd
      rw [hi, update_self, hc.count, hd]
      split_ifs <;> simp
    · rw [update_of_ne hi, hc.count, hother i hi]
  stat := by
    rw [hc.stat, distinct_perm hp, distinct_cons]
    split_ifs <;> simp
  size := by
    rw [hc.size, hp.length_eq]
    simp

variable [Field K] [IsStrictOrderedRing K] [FloorRing K]

omit [IsStrictOrderedRing K] in
theorem Holds.moveClock (h : Holds c q) {t : K} (ht : 0 ≤ t) (hle : ∀ e ∈ q, t ≤ e.time) :
    Holds { c with calClock := t, lastbucket := c.hash t } q :=
  ⟨h.filled, h.queue, h.nonneg, h.width, h.nbuckets, ht, hle, rfl, h.diff0, h.diff1, h.diff2, h.bot⟩

omit [IsStrictOrderedRing K] in
theorem place_spec (h : Holds c q) (he : e.addr ∉ q.map Event.addr) (ht : 0 ≤ e.time) :
    ∃ c', c.place e = some c' ∧ Holds c' (ListScheduler.insert e q) := by
  obtain ⟨c₁, hc₁, h₁, hle⟩ : ∃ c₁, (if c.calClock > e.time then
      { c with calClock := e.time, lastbucket := c.hash e.time } else c) = c₁ ∧
      Holds c₁ q ∧ c₁.calClock ≤ e.time := by
    split_ifs with hlt
    · exact ⟨_, rfl, h.moveClock ht fun x hx => hlt.le.trans (h.clock_le x hx), le_rfl⟩
    · exact ⟨c, rfl, h, not_lt.1 hlt⟩
  have hinsert := h.queue.insert he
  rw [insert_eq] at hinsert ⊢
  set q' := insertAfter Event.time e q with hq'
  have hother : ∀ i, i ≠ c₁.hash e.time →
      q'.filter (fun x => c₁.hash x.time = i) = q.filter fun x => c₁.hash x.time = i := by
    intro i hi
    rw [hq', filter_insertAfter h.queue.sorted, if_neg]
    simpa using hi.symm
  have hmem : ∀ x ∈ q', x = e ∨ x ∈ q := fun x hx => by simpa [hq'] using hx
  have hnonneg : ∀ x ∈ q', 0 ≤ x.time := by
    intro x hx
    rcases hmem x hx with rfl | hx
    · exact ht
    · exact h.nonneg x hx
  have hclock : ∀ x ∈ q', c₁.calClock ≤ x.time := by
    intro x hx
    rcases hmem x hx with rfl | hx
    · exact hle
    · exact h₁.clock_le x hx
  have hadd := h₁.filled.add e hinsert.sorted (insertAfter_perm e q) hother
  obtain ⟨searches, hlist⟩ := insertList_eq (h.queue.sorted.filter
    fun x => decide (c₁.hash x.time = c₁.hash e.time)) e
  have hplace : c.place e = some { c₁.setBucket (c₁.hash e.time)
      ⟨q'.filter fun x => c₁.hash x.time = c₁.hash e.time,
        (c₁.buckets (c₁.hash e.time)).count + if NewTime e q then 1 else 0⟩ with
      insertSearch := c₁.insertSearch + searches,
      statQsize := c₁.statQsize + if NewTime e q then 1 else 0, qsize := c₁.qsize + 1 } := by
    unfold place
    rw [hc₁]
    dsimp only
    rw [h₁.filled.list, hlist, hq', filter_insertAfter h.queue.sorted]
    simp only [map_some, decide_true, if_true, decide_eq_true_eq,
      if_congr (newTime_filter c₁.hash q) rfl rfl]
  exact ⟨_, hplace, hadd, hinsert, hnonneg, h₁.width, h₁.nbuckets, h₁.clock, hclock, h₁.lastbucket,
    h₁.diff0, h₁.diff1, h₁.diff2, h₁.bot⟩

theorem insert_spec (h : Holds c q) (hsqrt : ∀ x, 0 < x → 0 < sqrt x)
    (he : e.addr ∉ q.map Event.addr) (ht : 0 ≤ e.time) :
    ∃ c', c.insert sqrt e = some c' ∧ Holds c' (ListScheduler.insert e q) := by
  obtain ⟨c₁, hc₁, h₁⟩ := place_spec h he ht
  unfold insert
  rw [hc₁, bind_some]
  split_ifs
  · have hn := h₁.nbuckets
    obtain ⟨c', hc', h', -⟩ := resize_spec h₁ hsqrt (show 0 < 2 * c₁.nbuckets by omega)
    exact ⟨c', hc', h'⟩
  · exact ⟨c₁, rfl, h₁⟩

theorem adjustWidth_spec (h : Holds c q) (hsqrt : ∀ x, 0 < x → 0 < sqrt x) (e : Event K) :
    ∃ c', c.adjustWidth sqrt e = some c' ∧ Holds c' q ∧ c'.calClock = c.calClock := by
  have hn : 0 < c.nbuckets := Nat.zero_lt_of_lt h.nbuckets
  unfold adjustWidth
  dsimp only
  split_ifs
  · exact ⟨c, rfl, h, rfl⟩
  · exact ⟨_, rfl, h.stats _ _ _ _ _ e.time _, rfl⟩
  · set c₁ : CalendarScheduler K := { c with
      gapNum := 0, lastTime := e.time, roundNum := c.roundNum + 1,
      avgGap := (e.time - c.lastTime) / (c.gapNum + 1 : ℤ) } with hc₁
    have h₁ : Holds c₁ q := h.stats _ _ _ _ _ _ _
    obtain ⟨c', hc', h', ht⟩ := resize_spec h₁ hsqrt hn
    refine ⟨{ c' with roundNum := 0 }, ?_, h'.stats _ _ _ 0 _ _ _, ht⟩
    exact congrArg (Option.map _) hc'
  · exact ⟨_, rfl, h.stats _ 0 0 0 0 e.time _, rfl⟩
  · exact ⟨_, rfl, h.stats _ _ _ (c.roundNum + 1) 0 e.time _, rfl⟩
  · exact ⟨_, rfl, h.stats _ _ _ _ (c.gapNum + 1) _ _, rfl⟩

omit [IsStrictOrderedRing K] in
theorem unlinkHead_spec {r : List (Event K)} (h : Holds c (e :: r)) (ht : c.calClock = e.time) :
    ∃ c', c.unlinkHead e = some c' ∧ Holds c' r ∧ c'.calClock = e.time := by
  have hsorted : KeySorted Event.time (e :: r.filter fun x => c.hash x.time = c.hash e.time) := by
    have := h.queue.sorted.filter fun x => decide (c.hash x.time = c.hash e.time)
    rwa [List.filter_cons_of_pos (by simp)] at this
  have hlast : c.lastbucket = c.hash e.time := by rw [h.lastbucket, ht]
  have hremove := h.filled.remove (e := e) h.queue.tail.sorted (List.Perm.refl _) (by
    intro i hi
    rw [List.filter_cons_of_neg]
    simpa using hi.symm)
  have hunlink : c.unlinkHead e = some { c.setBucket (c.hash e.time)
      ⟨r.filter fun x => c.hash x.time = c.hash e.time,
        (c.buckets (c.hash e.time)).count - if NewTime e r then 1 else 0⟩ with
      statQsize := c.statQsize - if NewTime e r then 1 else 0, qsize := c.qsize - 1 } := by
    unfold unlinkHead
    dsimp only
    rw [hlast, h.filled.list, List.filter_cons_of_pos (by simp)]
    dsimp only
    rw [if_pos rfl, if_congr (newTime_iff_head hsorted).symm rfl rfl,
      if_congr (newTime_filter c.hash r) rfl rfl]
  refine ⟨_, hunlink, ⟨hremove, h.queue.tail, ?_, h.width, h.nbuckets, h.clock, ?_, h.lastbucket,
    h.diff0, h.diff1, h.diff2, h.bot⟩, ht⟩
  · exact fun x hx => h.nonneg x (List.mem_cons_of_mem _ hx)
  · exact fun x hx => h.clock_le x (List.mem_cons_of_mem _ hx)

theorem deque_spec (h : Holds c q) (hsqrt : ∀ x, 0 < x → 0 < sqrt x) :
    ∃ c', c.deque sqrt = some (c', (ListScheduler.deque q).2) ∧
      Holds c' (ListScheduler.deque q).1 := by
  cases q with
  | nil => exact ⟨c, by rw [deque, head_nil h]; rfl, h⟩
  | cons e r =>
    obtain ⟨c₁, hc₁, h₁, ht₁⟩ := head_cons h
    obtain ⟨c₂, hc₂, h₂, ht₂⟩ := adjustWidth_spec h₁ hsqrt e
    obtain ⟨c₃, hc₃, h₃, -⟩ := unlinkHead_spec h₂ (ht₂.trans ht₁)
    have hn : 0 < c₃.nbuckets / 2 := Nat.div_pos (by have := h₃.nbuckets; omega) (by decide)
    obtain ⟨c₄, hc₄, h₄, -⟩ := resize_spec h₃ hsqrt hn
    unfold deque
    rw [hc₁, bind_some]
    dsimp only
    rw [hc₂, bind_some, hc₃, bind_some]
    split_ifs
    · exact ⟨c₄, by rw [hc₄]; rfl, h₄⟩
    · exact ⟨c₃, rfl, h₃⟩

omit [IsStrictOrderedRing K] in
theorem cancel_spec (h : Holds c q) (he : e ∈ q) (hu : 0 < e.uid) :
    ∃ c', c.cancel e = some (c', e.cancelled) ∧ Holds c' (without e q) := by
  set i := c.hash e.time with hi
  set l := q.filter (fun x => c.hash x.time = i) with hl
  have hel : e ∈ l := by simp [hl, hi, he]
  have hql : Queue l := h.queue.filter _
  obtain ⟨before, after, hsplit, htake, hdrop, hrest⟩ := split_of_mem hql.nodup hel
  have hrest : before ++ after = without e l := hrest
  have hwithout : without e l = (without e q).filter fun x => c.hash x.time = i := by
    rw [without, without, List.filter_comm]
  have hnew : (((after ++ before).head?.all fun x => x.time ≠ e.time) = true ∧
      ((after ++ before).getLast?.all fun x => x.time ≠ e.time) = true) ↔
      NewTime e (without e q) := by
    rw [← newTime_iff_neighbours (hsplit ▸ hql.sorted), hrest, hwithout, newTime_filter]
  have hother : ∀ j, j ≠ c.hash e.time →
      (without e q).filter (fun x => c.hash x.time = j) = q.filter fun x => c.hash x.time = j := by
    intro j hj
    rw [without, List.filter_filter]
    refine List.filter_congr fun x hx => ?_
    by_cases hxj : c.hash x.time = j
    · have hne : x.addr ≠ e.addr := by
        intro hxe
        exact hj (by rw [← hxj, h.queue.eq_of_addr hx he hxe])
      simp [hxj, hne]
    · simp [hxj]
  have hremove := h.filled.remove (h.queue.without e).sorted (perm_cons_filter_ne h.queue.nodup he) hother
  have hcount : (c.buckets i).count - (if NewTime e (without e q) then 1 else 0) =
      distinct (before ++ after) := by
    have hc := hremove.count i
    rw [update_self] at hc
    rw [hrest, hwithout]
    exact hc
  have hstat : c.statQsize - (if NewTime e (without e q) then 1 else 0) = distinct (without e q) :=
    hremove.stat
  have hcancel : c.cancel e = some ({ c.setBucket i ⟨(without e q).filter fun x => c.hash x.time = i,
        (c.buckets i).count - if NewTime e (without e q) then 1 else 0⟩ with
      statQsize := c.statQsize - if NewTime e (without e q) then 1 else 0,
      qsize := c.qsize - 1 }, e.cancelled) := by
    unfold cancel
    rw [if_neg (by omega)]
    dsimp only
    rw [← hi, h.filled.list, ← hl, htake, hdrop]
    dsimp only
    rw [if_congr hnew rfl rfl, if_pos, hrest, hwithout]
    rw [hstat, hcount]
    refine ⟨by omega, by omega, fun h0 => ?_⟩
    exact distinct_eq_zero.1 (by exact_mod_cast h0)
  have hmem : ∀ x ∈ without e q, x ∈ q := fun x hx => (mem_without.1 hx).1
  exact ⟨_, hcancel, hremove, h.queue.without e, fun x hx => h.nonneg x (hmem x hx), h.width,
    h.nbuckets, h.clock, fun x hx => h.clock_le x (hmem x hx), h.lastbucket, h.diff0, h.diff1,
    h.diff2, h.bot⟩

theorem lookup_spec (h : Holds c q) {uid : ℤ} (hu : Admissible q (.lookup uid)) :
    c.lookup uid = ListScheduler.lookup uid q := by
  have hn := h.nbuckets
  refine eq_lookup hu (fun e he => ?_) fun hl e he hue => ?_
  · obtain ⟨i, -, hi⟩ := List.exists_of_findSome?_eq_some he
    rw [h.filled.list] at hi
    have hmem := List.mem_of_find?_eq_some hi
    exact ⟨List.mem_of_mem_filter hmem, by simpa using List.find?_some hi⟩
  · have hlt := hash_lt h.width (by omega) (h.nonneg e he)
    have hnone := List.findSome?_eq_none_iff.1 hl _ (List.mem_range.2 hlt)
    rw [h.filled.list] at hnone
    exact absurd (List.find?_eq_none.1 hnone e (by simp [he])) (by simp [hue])

/-- What callers promise, and no event before time zero. -/
def Allowed (q : List (Event K)) (o : Op K) : Prop :=
  Admissible q o ∧ ∀ e, o = .insert e → 0 ≤ e.time

theorem machine_simulates (hsqrt : ∀ x, 0 < x → 0 < sqrt x) :
    Machine.Simulates (machine sqrt) ListScheduler.machine (fun _ _ => True) Allowed Holds where
  step := by
    rintro c q o h - ⟨ho, ht⟩
    cases o with
    | insert e =>
      obtain ⟨c', hc', h'⟩ := insert_spec h hsqrt ho (ht e rfl)
      exact ⟨c', _, none, by simp [machine, hc'], rfl, h'⟩
    | cancel e =>
      by_cases hu : e.uid ≤ 0
      · exact ⟨c, q, some e, by simp [machine, cancel, hu],
          by simp [ListScheduler.machine, ListScheduler.cancel, hu], h⟩
      · obtain ⟨c', hc', h'⟩ := cancel_spec h ho (not_le.1 hu)
        refine ⟨c', without e q, some e.cancelled, by simp [machine, hc'], ?_, h'⟩
        simp [ListScheduler.machine, ListScheduler.cancel, hu, unlink_eq h.queue.nodup ho]
    | lookup uid =>
      refine ⟨c, q, _, rfl, ?_, h⟩
      rw [lookup_spec h ho]
      rfl
    | head =>
      cases q with
      | nil => exact ⟨c, [], none, head_nil h, rfl, h⟩
      | cons e r =>
        obtain ⟨c', hc', h', -⟩ := head_cons h
        exact ⟨c', _, some e, hc', rfl, h'⟩
    | deque =>
      obtain ⟨c', hc', h'⟩ := deque_spec h hsqrt
      exact ⟨c', _, _, hc', rfl, h'⟩

omit [IsStrictOrderedRing K] in
theorem holds_reinit (c : CalendarScheduler K) (hc : 0 ≤ c.calClock) :
    Holds (c.reinit 4 1 c.calClock) [] where
  filled := Cut.nil _
  queue := Queue.nil
  nonneg := by simp
  width := one_pos
  nbuckets := le_rfl
  clock := hc
  clock_le := by simp
  lastbucket := rfl
  diff0 := rfl
  diff1 := rfl
  diff2 := rfl
  bot := rfl

omit [IsStrictOrderedRing K] in
theorem holds_construct (m : CalendarScheduler K) : Holds (construct m) [] := by
  unfold construct
  dsimp only
  split_ifs
  · exact holds_reinit { m with
      calClock := 0, avgGap := -2, lastTime := -2, gapNum := 0, headSearch := 0, insertSearch := 0,
      roundNum := 0, timeToNewwidth := m.adjustNewWidthInterval } le_rfl
  · exact holds_reinit { m with calClock := 0 } le_rfl

/-- Every sequence of operations is answered as by the list scheduler, and the
buckets hold the list queue throughout. -/
theorem calendar_refines_list {sqrt : K → K} (hsqrt : ∀ x, 0 < x → 0 < sqrt x)
    (m : CalendarScheduler K) {ops : List (Op K)}
    (hops : ListScheduler.machine.RunsWith Allowed [] ops) :
    ∃ c q as, (machine sqrt).run (construct m) ops = some (c, as) ∧
      ListScheduler.machine.run [] ops = some (q, as) ∧ Holds c q :=
  (machine_simulates hsqrt).run (holds_construct m) (Machine.runsWith_true _ _ _) hops

/-- Two events due at time 3, one of them cancelled, and an earlier one. -/
theorem calendar_refines_list_real : ∃ c q as,
    (machine Real.sqrt).run (construct defaults) [.insert ⟨0, 3, 1⟩, .insert ⟨1, 3, 2⟩,
      .insert ⟨2, 1, 3⟩, .head, .cancel ⟨0, 3, 1⟩, .deque, .deque] = some (c, as) ∧
    ListScheduler.machine.run [] [.insert ⟨0, 3, 1⟩, .insert ⟨1, 3, 2⟩, .insert ⟨2, 1, 3⟩, .head,
      .cancel ⟨0, 3, 1⟩, .deque, .deque] = some (q, as) ∧ Holds c q := by
  refine calendar_refines_list (fun x hx => Real.sqrt_pos.2 hx) defaults ?_
  simp [Machine.RunsWith, Allowed, Admissible, ListScheduler.machine, ListScheduler.insert,
    ListScheduler.cancel, ListScheduler.deque]

end CalendarScheduler

end Ns2
