import Mathlib.Data.List.Infix
import Mathlib.Tactic.Linarith
import Ns2.Imep.Agent

/-! What the agent keeps about one neighbour: the last sequence number of its link and the packets of
it that wait for those before them. -/

namespace Ns2.Imep

open List Option

theorem seqDiff_eq {m n : ℕ} (h : m < n + 128) (h' : n < m + 128) :
    seqDiff (m % 256) (n % 256) = (m : ℤ) - n := by
  rw [seqDiff, Int.bmod_def]
  omega

/-- The resequencing queue of a neighbour. -/
def dstOf (q : List Dstent) (x : ℤ) : Dstent := (findKey Dstent.ipaddr x q).getD ⟨x, [], illegalSeq⟩

namespace ImepAgent

/-- The last sequence number of a link that is not down. -/
def lastOf (s : ImepAgent) (x : ℤ) : Option ℕ :=
  ((s.findLink x).filter fun l => !l.isDown).map ImepLink.lastSeq

/-- Until when a neighbour counts as heard. -/
def inOf (s : ImepAgent) (x : ℤ) : Option ℚ :=
  ((s.findLink x).filter ImepLink.linkIn).map ImepLink.inExpire

/-- The packets of a neighbour that wait. -/
def queueOf (s : ImepAgent) (x : ℤ) : List Txent := (dstOf s.incomingQ x).txents

end ImepAgent

section Queues

variable {q q' : List Dstent} {x y : ℤ} {t : Txent} {seqno n : ℕ}

theorem length_dstOf_le (x : ℤ) (q : List Dstent) :
    (dstOf q x).txents.length ≤ (q.map fun d => d.txents.length).sum := by
  induction q with
  | nil => exact Nat.le_refl _
  | cons d q ih =>
    rw [dstOf, findKey_cons, map_cons, sum_cons]
    split_ifs
    · exact Nat.le_add_right _ _
    · exact ih.trans (Nat.le_add_left _ _)

theorem dstOf_updateKey {f : Dstent → Dstent} (hf : ∀ d, (f d).ipaddr = d.ipaddr)
    (hx : ∃ d, findKey Dstent.ipaddr x q = some d) :
    dstOf (updateKey Dstent.ipaddr x f q) y = if y = x then f (dstOf q x) else dstOf q y := by
  obtain ⟨d, hd⟩ := hx
  rw [dstOf, findKey_updateKey fun d hd => (hf d).trans hd]
  split_ifs with hy
  · rw [dstOf, hd]
    rfl
  · rfl

theorem dstOf_addEntry : dstOf (addEntry x t q) y =
    if y = x then (dstOf q x).addEntry t else dstOf q y := by
  have hadd : ∀ d : Dstent, (d.addEntry t).ipaddr = d.ipaddr := fun d => by
    rw [Dstent.addEntry]
    split <;> rfl
  rw [addEntry]
  split
  · rename_i hnone
    rw [dstOf, findKey_cons, hadd]
    by_cases hy : y = x
    · rw [if_pos hy, if_pos hy.symm, dstOf, hnone]
      rfl
    · rw [if_neg hy, if_neg (Ne.symm hy)]
      rfl
  · rename_i d hsome
    exact dstOf_updateKey hadd ⟨d, hsome⟩

theorem dstOf_eraseKey (hq : (q.map Dstent.ipaddr).Nodup) :
    dstOf (eraseKey Dstent.ipaddr x q) y = if y = x then ⟨x, [], illegalSeq⟩ else dstOf q y := by
  rw [dstOf, findKey_eraseKey hq]
  split_ifs with hy
  · rw [hy]
    rfl
  · rfl

theorem nodup_addEntry (hq : (q.map Dstent.ipaddr).Nodup) :
    ((addEntry x t q).map Dstent.ipaddr).Nodup := by
  have hadd : ∀ d : Dstent, (d.addEntry t).ipaddr = d.ipaddr := fun d => by
    rw [Dstent.addEntry]
    split <;> rfl
  rw [addEntry]
  split
  · rename_i hnone
    refine nodup_cons.2 ⟨fun hx => ?_, hq⟩
    obtain ⟨d, hd, hdx⟩ := mem_map.1 hx
    exact findKey_eq_none.1 hnone d hd (hdx.trans (hadd _))
  · rw [map_updateKey fun d hd => (hadd d).trans hd]
    exact hq

theorem getPacket_eq_none (h : findKey Txent.seqno seqno (dstOf q x).txents = none) :
    getPacket x seqno q = none := by
  rw [getPacket]
  cases hd : findKey Dstent.ipaddr x q with
  | none => rfl
  | some d =>
    rw [dstOf, hd] at h
    simp only [bind_eq_bind, bind_some]
    rw [show findKey Txent.seqno seqno d.txents = none from h]
    rfl

theorem getPacket_eq_some (h : findKey Txent.seqno seqno (dstOf q x).txents = some t) :
    ∃ q', getPacket x seqno q = some (t.number, q') ∧ q'.map Dstent.ipaddr = q.map Dstent.ipaddr ∧
      (q'.map fun d => d.txents.length).sum ≤ (q.map fun d => d.txents.length).sum ∧
      dstOf q' x = { dstOf q x with txents := eraseKey Txent.seqno seqno (dstOf q x).txents } ∧
      ∀ y, y ≠ x → dstOf q' y = dstOf q y := by
  cases hd : findKey Dstent.ipaddr x q with
  | none =>
    rw [dstOf, hd] at h
    cases h
  | some d =>
    have hdst : dstOf q x = d := by rw [dstOf, hd]; rfl
    have hupd := fun y => dstOf_updateKey (q := q) (x := x) (y := y)
      (f := fun d => { d with txents := eraseKey Txent.seqno seqno d.txents }) (fun _ => rfl) ⟨d, hd⟩
    refine ⟨updateKey Dstent.ipaddr x
      (fun d => { d with txents := eraseKey Txent.seqno seqno d.txents }) q, ?_, ?_, ?_, ?_,
      fun y hy => ?_⟩
    · rw [getPacket, hd]
      rw [hdst] at h
      simp only [bind_eq_bind, bind_some, h]
      rfl
    · exact map_updateKey fun _ h => h
    · exact sum_updateKey_le fun d => length_eraseP_le
    · rw [hupd, if_pos rfl]
    · rw [hupd, if_neg hy]

end Queues

section Insert

variable {l : List Txent} {t u : Txent} {b : ℕ}

theorem mem_insertTxent : u ∈ Dstent.insertTxent t l ↔ u = t ∨ u ∈ l := by
  induction l with
  | nil => exact mem_singleton.trans (by simp)
  | cons a l ih =>
    rw [Dstent.insertTxent]
    split_ifs
    · exact mem_cons
    · rw [mem_cons, ih, mem_cons]
      exact or_left_comm

theorem pairwise_insertTxent (hl : l.Pairwise fun u v => u.number < v.number)
    (hw : ∀ u ∈ t :: l, u.seqno = u.number % 256 ∧ b < u.number ∧ u.number < b + 128)
    (hne : ∀ u ∈ l, u.number ≠ t.number) :
    (Dstent.insertTxent t l).Pairwise fun u v => u.number < v.number := by
  induction l with
  | nil => exact pairwise_singleton _ _
  | cons a l ih =>
    obtain ⟨ha, hl'⟩ := pairwise_cons.1 hl
    obtain ⟨hat, hab, hab'⟩ := hw a (mem_cons_of_mem _ mem_cons_self)
    obtain ⟨htt, htb, htb'⟩ := hw t mem_cons_self
    have hdiff : seqDiff a.seqno t.seqno = (a.number : ℤ) - t.number := by
      rw [hat, htt]
      exact seqDiff_eq (by omega) (by omega)
    have hna := hne a mem_cons_self
    rw [Dstent.insertTxent]
    by_cases hgt : seqGt a.seqno t.seqno = true
    · rw [if_pos hgt]
      have hlt : t.number < a.number := by
        simp only [seqGt, hdiff, decide_eq_true_eq] at hgt
        omega
      refine pairwise_cons.2 ⟨fun v hv => ?_, hl⟩
      rcases mem_cons.1 hv with rfl | hv
      · exact hlt
      · exact hlt.trans (ha v hv)
    · rw [if_neg hgt]
      have hlt : a.number < t.number := by
        simp only [seqGt, hdiff, decide_eq_true_eq] at hgt
        omega
      refine pairwise_cons.2 ⟨fun v hv => ?_, ih hl' ?_ ?_⟩
      · rcases mem_insertTxent.1 hv with rfl | hv
        · exact hlt
        · exact ha v hv
      · rintro v (_ | ⟨_, hv⟩)
        · exact hw t mem_cons_self
        · exact hw v (mem_cons_of_mem _ (mem_cons_of_mem _ hv))
      · exact fun v hv => hne v (mem_cons_of_mem _ hv)

end Insert

/-- Packets that wait behind the number `b`, in order. -/
structure Waiting (b : ℕ) (q : List Txent) : Prop where
  sorted : q.Pairwise fun t u => t.number < u.number
  ahead : ∀ t ∈ q, b < t.number ∧ t.number < b + 128
  seqno : ∀ t ∈ q, t.seqno = t.number % 256

/-- The packets that follow `b` without a gap do not lead over from the sequence number 255 to 0. -/
def WrapSafe (b : ℕ) (q : List Txent) : Prop :=
  ∀ t ∈ q, t.number % 256 = 0 → b < t.number → ∃ m < t.number, b < m ∧ m ∉ q.map Txent.number

theorem Waiting.mono {b c : ℕ} {q : List Txent} (h : Waiting b q) (hbc : b ≤ c)
    (hc : ∀ t ∈ q, c < t.number) : Waiting c q :=
  ⟨h.sorted, fun t ht => ⟨hc t ht, by have := (h.ahead t ht).2; omega⟩, h.seqno⟩

theorem Waiting.tail {b : ℕ} {t : Txent} {q : List Txent} (h : Waiting b (t :: q)) :
    Waiting t.number q :=
  ⟨h.sorted.of_cons, fun u hu => ⟨rel_of_pairwise_cons h.sorted hu, by
    have := (h.ahead u (mem_cons_of_mem _ hu)).2
    have := (h.ahead t mem_cons_self).1
    omega⟩, fun u hu => h.seqno u (mem_cons_of_mem _ hu)⟩

theorem Waiting.of_append {b : ℕ} {q q' : List Txent} (h : Waiting b (q ++ q')) : Waiting b q' :=
  ⟨(pairwise_append.1 h.sorted).2.1, fun t ht => h.ahead t (mem_append_right q ht),
    fun t ht => h.seqno t (mem_append_right q ht)⟩

theorem WrapSafe.tail {b : ℕ} {t : Txent} {q : List Txent} (h : WrapSafe b (t :: q))
    (ht : t.number = b + 1) : WrapSafe (b + 1) q := by
  intro u hu hzero hlt
  obtain ⟨m, hmu, hbm, hm⟩ := h u (mem_cons_of_mem _ hu) hzero (by omega)
  rw [map_cons, mem_cons, not_or, ht] at hm
  exact ⟨m, hmu, by omega, hm.2⟩

/-- The search for the number behind `b` finds it in front of the queue or not at all. -/
theorem findKey_seqno_of_ne {b : ℕ} {q : List Txent} (h : Waiting b q)
    (hne : ∀ t ∈ q, t.number ≠ b + 1) : findKey Txent.seqno (b % 256 + 1) q = none := by
  rw [findKey_eq_none]
  intro t ht heq
  rw [h.seqno t ht] at heq
  have := h.ahead t ht
  exact hne t ht (by omega)

/-- The neighbours other than `x` are as they were. -/
structure OthersKept (x : ℤ) (s s' : ImepAgent) : Prop where
  now : s'.now = s.now
  timer : s'.incomingTimer = s.incomingTimer
  addrs : s'.incomingQ.map Dstent.ipaddr = s.incomingQ.map Dstent.ipaddr
  indices : s'.links.map ImepLink.index = s.links.map ImepLink.index
  inOf : ∀ y, s'.inOf y = s.inOf y
  buffered : s'.buffered ≤ s.buffered
  last : ∀ y, y ≠ x → s'.lastOf y = s.lastOf y
  dst : ∀ y, y ≠ x → dstOf s'.incomingQ y = dstOf s.incomingQ y

namespace ImepAgent

variable {s s' s'' : ImepAgent} {x y : ℤ}

theorem othersKept_refl (x : ℤ) (s : ImepAgent) : OthersKept x s s :=
  ⟨rfl, rfl, rfl, rfl, fun _ => rfl, le_rfl, fun _ _ => rfl, fun _ _ => rfl⟩

theorem othersKept_trans (h : OthersKept x s s') (h' : OthersKept x s' s'') : OthersKept x s s'' :=
  ⟨h'.now.trans h.now, h'.timer.trans h.timer, h'.addrs.trans h.addrs, h'.indices.trans h.indices,
    fun y => (h'.inOf y).trans (h.inOf y), h'.buffered.trans h.buffered,
    fun y hy => (h'.last y hy).trans (h.last y hy), fun y hy => (h'.dst y hy).trans (h.dst y hy)⟩

theorem lastOf_setLink (f : ImepLink → ImepLink) (hf : ∀ l, (f l).index = l.index) :
    (s.setLink x f).lastOf y = if y = x then
      (((s.findLink x).map f).filter fun l => !l.isDown).map ImepLink.lastSeq else s.lastOf y := by
  rw [lastOf, findLink, setLink, findKey_updateKey fun l hl => (hf l).trans hl]
  split_ifs
  · rfl
  · rfl

theorem inOf_setLink (f : ImepLink → ImepLink) (hf : ∀ l, (f l).index = l.index) :
    (s.setLink x f).inOf y = if y = x then
      (((s.findLink x).map f).filter ImepLink.linkIn).map ImepLink.inExpire else s.inOf y := by
  rw [inOf, findLink, setLink, findKey_updateKey fun l hl => (hf l).trans hl]
  split_ifs
  · rfl
  · rfl

theorem lastOf_eq_some {b : ℕ} (h : s.lastOf x = some b) :
    ∃ l, s.findLink x = some l ∧ l.isDown = false ∧ l.lastSeq = b := by
  obtain ⟨l, hl, hb⟩ := map_eq_some_iff.1 h
  obtain ⟨hl, hd⟩ := filter_eq_some_iff.1 hl
  exact ⟨l, hl, by simpa using hd, hb⟩

theorem lastOf_setLastSeq {b : ℕ} (h : s.lastOf x = some b) (seq : ℕ) :
    (s.setLastSeq x seq).lastOf x = some (seq % 256) := by
  obtain ⟨l, hl, hd, -⟩ := lastOf_eq_some h
  rw [setLastSeq, lastOf_setLink (fun l => { l with lastSeq := seq % 256 }) fun _ => rfl, if_pos rfl, hl]
  have hd' : ImepLink.isDown { l with lastSeq := seq % 256 } = false := hd
  simp [hd']

theorem othersKept_setLastSeq (x : ℤ) (seq : ℕ) : OthersKept x s (s.setLastSeq x seq) :=
  ⟨rfl, rfl, rfl, map_updateKey fun _ h => h, fun y => by
    rw [setLastSeq, inOf_setLink (fun l => { l with lastSeq := seq % 256 }) fun _ => rfl]
    split_ifs with hy
    · rw [hy, inOf]
      cases s.findLink x with
      | none => rfl
      | some l => obtain ⟨_, _ | _, _⟩ := l <;> rfl
    · rfl, le_rfl, fun y hy => by
    rw [setLastSeq, lastOf_setLink (fun l => { l with lastSeq := seq % 256 }) fun _ => rfl, if_neg hy],
    fun _ _ => rfl⟩

theorem deliverInSequence_of_gap {b : ℕ} (hlast : s.lastOf x = some (b % 256))
    (hq : Waiting b (s.queueOf x)) (hne : ∀ t ∈ s.queueOf x, t.number ≠ b + 1) (fuel : ℕ) :
    s.deliverInSequence x fuel = s := by
  obtain ⟨l, hl, -, hb⟩ := lastOf_eq_some hlast
  cases fuel with
  | zero => rfl
  | succ fuel =>
    rw [deliverInSequence, hl]
    dsimp only
    rw [hb, getPacket_eq_none (findKey_seqno_of_ne hq hne)]

theorem deliverInSequence_spec {fuel b : ℕ} (hlast : s.lastOf x = some (b % 256))
    (hq : Waiting b (s.queueOf x)) (hw : WrapSafe b (s.queueOf x))
    (hfuel : (s.queueOf x).length ≤ fuel) :
    ∃ taken rest, s.queueOf x = taken ++ rest ∧
      taken.map Txent.number = range' (b + 1) taken.length ∧
      (s.deliverInSequence x fuel).lastOf x = some ((b + taken.length) % 256) ∧
      dstOf (s.deliverInSequence x fuel).incomingQ x = { dstOf s.incomingQ x with txents := rest } ∧
      (∀ t ∈ rest, b + taken.length + 1 < t.number) ∧
      (s.deliverInSequence x fuel).rtagent =
        s.rtagent ++ taken.map (fun t => Upcall.object x t.number) ∧
      OthersKept x s (s.deliverInSequence x fuel) := by
  induction fuel generalizing s b with
  | zero =>
    have hnil : s.queueOf x = [] := length_eq_zero_iff.1 (Nat.le_zero.1 hfuel)
    refine ⟨[], [], hnil, rfl, hlast, ?_, nofun, (append_nil _).symm, othersKept_refl x s⟩
    rw [← hnil]
    rfl
  | succ fuel ih =>
    obtain ⟨l, hl, -, hb⟩ := lastOf_eq_some hlast
    have hstop := fun hne => deliverInSequence_of_gap hlast hq hne (fuel + 1)
    cases hqx : s.queueOf x with
    | nil =>
      rw [hstop (by rw [hqx]; exact nofun)]
      refine ⟨[], [], rfl, rfl, hlast, ?_, nofun, (append_nil _).symm, othersKept_refl x s⟩
      rw [← hqx]
      rfl
    | cons t ts =>
      rw [hqx] at hq hw hfuel
      by_cases ht : t.number = b + 1
      · have hb255 : b % 256 ≠ 255 := fun h255 => by
          obtain ⟨m, hm, hbm, -⟩ := hw t mem_cons_self (by omega) (by omega)
          omega
        have hseq : t.seqno = b % 256 + 1 := by
          rw [hq.seqno t mem_cons_self, ht]
          omega
        have hfind : findKey Txent.seqno (b % 256 + 1) (dstOf s.incomingQ x).txents = some t := by
          rw [show (dstOf s.incomingQ x).txents = t :: ts from hqx, findKey_cons, if_pos hseq]
        obtain ⟨q', hget, haddr, hbuf, hdst, hothers⟩ := getPacket_eq_some hfind
        rw [show (dstOf s.incomingQ x).txents = t :: ts from hqx, eraseKey_cons, if_pos hseq] at hdst
        let s₁ := ({ s with incomingQ := q' }.setLastSeq x (l.lastSeq + 1)).notify (.object x t.number)
        have hstep : s.deliverInSequence x (fuel + 1) = s₁.deliverInSequence x fuel := by
          rw [deliverInSequence, hl]
          dsimp only
          rw [hb, hget, ← hb]
        have hlast₁ : s₁.lastOf x = some ((b + 1) % 256) := by
          refine (lastOf_setLastSeq (s := { s with incomingQ := q' }) hlast _).trans (congrArg some ?_)
          rw [hb]
          omega
        have hqueue₁ : s₁.queueOf x = ts := congrArg Dstent.txents hdst
        have hkept : OthersKept x s s₁ :=
          have hset := othersKept_setLastSeq (s := { s with incomingQ := q' }) x (l.lastSeq + 1)
          ⟨rfl, rfl, haddr, hset.indices, hset.inOf, hbuf, hset.last, hothers⟩
        have hq₁ : Waiting (b + 1) ts := ht ▸ hq.tail
        obtain ⟨taken, rest, hsplit, hnum, hl₁, hd₁, hrest, hrt, hk₁⟩ :=
          ih hlast₁ (hqueue₁.symm ▸ hq₁) (hqueue₁.symm ▸ hw.tail ht)
            (by rw [hqueue₁]; exact Nat.le_of_succ_le_succ hfuel)
        rw [hqueue₁] at hsplit
        refine ⟨t :: taken, rest, by rw [hsplit]; rfl, ?_, ?_, ?_, ?_, ?_, hstep ▸ othersKept_trans hkept hk₁⟩
        · rw [map_cons, hnum, ht]
          rfl
        · rw [hstep, hl₁, length_cons, Nat.add_assoc, Nat.add_comm 1]
        · rw [hstep, hd₁]
          exact congrArg (fun d : Dstent => { d with txents := rest }) hdst
        · intro u hu
          have := hrest u hu
          rw [length_cons]
          omega
        · rw [hstep, hrt]
          exact append_assoc _ _ _
      · have hgt : ∀ u ∈ t :: ts, b + 1 < u.number := by
          intro u hu
          have := (hq.ahead t mem_cons_self).1
          rcases mem_cons.1 hu with rfl | hu
          · omega
          · have := rel_of_pairwise_cons hq.sorted hu
            omega
        rw [hstop (by rw [hqx]; exact fun u hu => (hgt u hu).ne')]
        refine ⟨[], t :: ts, rfl, rfl, hlast, ?_, hgt, (append_nil _).symm, othersKept_refl x s⟩
        rw [← hqx]
        rfl

end ImepAgent

end Ns2.Imep
