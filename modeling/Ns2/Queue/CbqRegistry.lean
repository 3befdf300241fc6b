import Mathlib.Algebra.Order.Field.Rat
import Ns2.Queue.CBQueue

/-! The circular lists of a `CBQueue` hold the leaf classes that were inserted, as long as no leaf
class is turned down after it has joined its list. -/

namespace Ns2.CBQueue

open PeerRing List Option Function

variable {c : Config} {s s' j : CBQueue} {ledger : List ℕ} {p : ℕ} {look : ℕ → ℕ → Look} {st : Scan}

/-- The circular list of each priority holds its leaf classes of the ledger, once each. -/
def Registered (c : Config) (s : CBQueue) (ledger : List ℕ) : Prop :=
  ∀ prio, ∃ l, Ring s.peer (s.active prio) l ∧
    ∀ p, p ∈ l ↔ p ∈ ledger ∧ (c.cls p).leaf ∧ (c.cls p).pri = prio

/-- The loops of `deque` end: they visit leaf classes of the ledger only, and all of them unless
they find one. -/
def Scans (c : Config) (s : CBQueue) (ledger : List ℕ) : Prop :=
  ∀ look, ∃ r, s.scan c look = some r ∧ (∀ p ∈ r.2.visited, p ∈ ledger ∧ (c.cls p).leaf) ∧
    (r.1 = false → ∀ p ∈ ledger, (c.cls p).leaf → p ∈ r.2.visited)

/-- The invariant: also, the loop over the priorities reaches every leaf class. -/
structure Books (c : Config) (s : CBQueue) (ledger : List ℕ) : Prop where
  rings : Registered c s ledger
  bound : ∀ p ∈ ledger, (c.cls p).leaf → 0 ≤ (c.cls p).pri ∧ (c.cls p).pri ≤ s.maxprio

/-- What the circular lists depend on. -/
structure SameRings (s j : CBQueue) : Prop where
  active : s.active = j.active
  peer : s.peer = j.peer
  maxprio : s.maxprio = j.maxprio

theorem Registered.congr (h : Registered c j ledger) (hs : SameRings s j) :
    Registered c s ledger := by
  unfold Registered
  rw [hs.active, hs.peer]
  exact h

theorem Books.congr (h : Books c j ledger) (hs : SameRings s j) : Books c s ledger :=
  ⟨h.rings.congr hs, hs.maxprio.symm ▸ h.bound⟩

def ValidPri (c : Config) (p : ℕ) : Prop := 0 ≤ (c.cls p).pri ∧ (c.cls p).pri ≤ maxPrio - 1

instance (c : Config) (p : ℕ) : Decidable (ValidPri c p) := inferInstanceAs (Decidable (_ ∧ _))

/-- The checks that come after the circular list. -/
def Accepted (c : Config) (s : CBQueue) (p : ℕ) : Prop :=
  (0 ≤ (c.cls p).allotment ∧ (c.cls p).allotment ≤ 1) ∧ (∃ bandwidth, s.link = some bandwidth ∧
    0 < bandwidth) ∧ 0 < (c.cls p).level ∧ (c.cls p).level ≤ maxLevel

theorem exists_setM (c : Config) (maxprio : ℤ) (w : Wrr) : ∃ w', setM c maxprio w = some w' := by
  have hweight : ∀ i, 0 ≤ weight c w i := by
    intro i
    unfold weight
    split_ifs with halloc
    · exact div_nonneg (mul_nonneg (Nat.cast_nonneg _) (Nat.cast_nonneg _)) halloc.le
    · exact le_rfl
  have hall : ((range (maxprio + 1).toNat).all fun i => 0 ≤ weight c w i) = true :=
    all_eq_true.2 fun i _ => decide_eq_true (hweight i)
  unfold setM
  rw [if_pos hall]
  exact ⟨_, rfl⟩

theorem exists_addallot (c : Config) (prio : ℤ) (diff : ℚ) (s : CBQueue) :
    ∃ w, s.addallot c prio diff = some { s with wrr := w } := by
  unfold addallot
  cases hw : s.wrr with
  | none => exact ⟨none, by dsimp only; rw [← hw]⟩
  | some w =>
    obtain ⟨w', hw'⟩ := exists_setM c s.maxprio
      { w with alloc := Function.update w.alloc prio (w.alloc prio + diff) }
    refine ⟨some w', ?_⟩
    simp only [hw']
    rfl

/-- The state when the class is in its circular list. -/
def joined (c : Config) (p : ℕ) (s : CBQueue) : CBQueue :=
  if (c.cls p).leaf then s.join p (c.cls p).pri else s

theorem insertBase_of_invalid (h : ¬ValidPri c p) : insertBase c p s = some (s, -1) := by
  refine if_pos ?_
  unfold ValidPri at h
  omega

theorem join_levels (p : ℕ) (pri : ℤ) (s : CBQueue) : (s.join p pri).levels = s.levels := by
  unfold join
  cases s.active pri <;> dsimp only <;> split_ifs <;> rfl

theorem join_maxlevel (p : ℕ) (pri : ℤ) (s : CBQueue) : (s.join p pri).maxlevel = s.maxlevel := by
  unfold join
  cases s.active pri <;> dsimp only <;> split_ifs <;> rfl

theorem join_link (p : ℕ) (pri : ℤ) (s : CBQueue) : (s.join p pri).link = s.link := by
  unfold join
  cases s.active pri <;> dsimp only <;> split_ifs <;> rfl

theorem join_maxprio (p : ℕ) (pri : ℤ) (s : CBQueue) :
    (s.join p pri).maxprio = max s.maxprio pri := by
  unfold join
  cases s.active pri <;> dsimp only <;> split_ifs <;> dsimp only <;> omega

theorem joined_eq (h : ¬(c.cls p).leaf) : joined c p s = s := if_neg h

theorem exists_insertRest (c : Config) (p : ℕ) (s : CBQueue) :
    ∃ s' r, insertRest c p s = some (s', r) ∧ SameRings s' s ∧ (Accepted c s p → r = 0) ∧
      (¬Accepted c s p → r = -1 ∧ s'.levels = s.levels ∧ s'.maxlevel = s.maxlevel) := by
  unfold insertRest
  dsimp only
  by_cases hallot : (c.cls p).allotment < 0 ∨ (c.cls p).allotment > 1
  · refine ⟨s, -1, if_pos hallot, ⟨rfl, rfl, rfl⟩, fun hacc => ?_, fun _ => ⟨rfl, rfl, rfl⟩⟩
    rcases hallot with hlt | hgt
    · exact absurd hacc.1.1 (not_le.2 hlt)
    · exact absurd hacc.1.2 (not_le.2 hgt)
  rw [if_neg hallot]
  rw [not_or, not_lt, not_lt] at hallot
  cases hlink : s.link with
  | none =>
    refine ⟨s, -1, rfl, ⟨rfl, rfl, rfl⟩, fun hacc => ?_, fun _ => ⟨rfl, rfl, rfl⟩⟩
    obtain ⟨bandwidth, hsome, -⟩ := hacc.2.1
    rw [hlink] at hsome
    cases hsome
  | some bandwidth =>
    dsimp only
    by_cases hbandwidth : bandwidth ≤ 0
    · refine ⟨s, -1, if_pos hbandwidth, ⟨rfl, rfl, rfl⟩, fun hacc => ?_,
        fun _ => ⟨rfl, rfl, rfl⟩⟩
      obtain ⟨bandwidth', hsome, hpos⟩ := hacc.2.1
      obtain rfl : bandwidth' = bandwidth := some.inj (hsome.symm.trans hlink)
      exact absurd hpos (not_lt.2 hbandwidth)
    rw [if_neg hbandwidth]
    obtain ⟨w, hw⟩ := exists_addallot c (c.cls p).pri (c.cls p).allotment { s with
      maxrate := Function.update s.maxrate p ((c.cls p).allotment * (bandwidth / 8)) }
    rw [← hlink]
    rw [hw, bind_some]
    by_cases hlevel : (c.cls p).level ≤ 0 ∨ (c.cls p).level > maxLevel
    · refine ⟨_, -1, if_pos hlevel, ⟨rfl, rfl, rfl⟩, fun hacc => ?_, fun _ => ⟨rfl, rfl, rfl⟩⟩
      have hle := hacc.2.2
      omega
    · refine ⟨_, 0, if_neg hlevel, ?_, fun _ => rfl, fun hnot => ?_⟩
      · unfold joinLevel
        dsimp only
        split_ifs <;> exact ⟨rfl, rfl, rfl⟩
      · refine absurd ⟨hallot, ⟨bandwidth, hlink, not_le.1 hbandwidth⟩, ?_⟩ hnot
        omega

theorem joined_levels (c : Config) (p : ℕ) (s : CBQueue) :
    (joined c p s).levels = s.levels ∧ (joined c p s).maxlevel = s.maxlevel ∧
      (joined c p s).link = s.link := by
  unfold joined
  split_ifs
  · exact ⟨join_levels .., join_maxlevel .., join_link ..⟩
  · exact ⟨rfl, rfl, rfl⟩

theorem insertClass_of_invalid (h : ¬ValidPri c p) (s : CBQueue) :
    insertClass c p s = some (s, -1) := by
  unfold insertClass
  rw [insertBase_of_invalid h, bind_some]
  dsimp only
  cases s.wrr with
  | none => rfl
  | some w => exact if_pos (by decide)

/-- With a valid priority the class has joined its circular list whatever the answer is. -/
theorem exists_insertClass (h : ValidPri c p) (s : CBQueue) :
    ∃ s' r, insertClass c p s = some (s', r) ∧ SameRings s' (joined c p s) ∧
      (Accepted c s p → r = 0) ∧
      (¬Accepted c s p → r = -1 ∧ s'.levels = s.levels ∧ s'.maxlevel = s.maxlevel) := by
  have hpri : ¬((c.cls p).pri < 0 ∨ (c.cls p).pri > maxPrio - 1) := by
    unfold ValidPri at h
    omega
  obtain ⟨hlevels, hmaxlevel, hlink⟩ := joined_levels c p s
  have hsame : Accepted c (joined c p s) p ↔ Accepted c s p := by
    unfold Accepted
    rw [hlink]
  obtain ⟨t, r, hrest, hrings, haccept, hreject⟩ := exists_insertRest c p (joined c p s)
  rw [hsame] at haccept hreject
  rw [hlevels, hmaxlevel] at hreject
  have hbase : insertBase c p s = some (t, r) := (if_neg hpri).trans hrest
  unfold insertClass
  rw [hbase, bind_some]
  dsimp only
  cases hw : t.wrr with
  | none => exact ⟨t, r, rfl, hrings, haccept, hreject⟩
  | some w =>
    dsimp only
    by_cases hacc : Accepted c s p
    · obtain ⟨w', hw'⟩ := exists_setM c t.maxprio
        { w with cnt := Function.update w.cnt (c.cls p).pri (w.cnt (c.cls p).pri + 1) }
      rw [haccept hacc, if_neg (by decide), hw']
      exact ⟨_, 0, rfl, ⟨hrings.active, hrings.peer, hrings.maxprio⟩, fun _ => rfl,
        fun hnot => absurd hacc hnot⟩
    · obtain ⟨hr, hrest⟩ := hreject hacc
      rw [hr, if_pos (by decide)]
      exact ⟨t, -1, rfl, hrings, fun hnot => absurd hnot hacc, fun _ => ⟨rfl, hrest⟩⟩

theorem join_of_some {pri : ℤ} {h : ℕ} (hactive : s.active pri = some h) :
    (s.join p pri).active = s.active ∧
      (s.join p pri).peer = Function.update (Function.update s.peer p (s.peer h)) h (some p) := by
  unfold join
  rw [hactive]
  dsimp only
  split_ifs <;> exact ⟨rfl, rfl⟩

theorem join_of_none {pri : ℤ} (hactive : s.active pri = none) :
    (s.join p pri).active = Function.update s.active pri (some p) ∧
      (s.join p pri).peer = Function.update s.peer p (some p) := by
  unfold join
  rw [hactive]
  dsimp only
  split_ifs <;> exact ⟨rfl, rfl⟩

theorem Registered.join (h : Registered c s ledger) (hp : p ∉ ledger) (hleaf : (c.cls p).leaf) :
    Registered c (s.join p (c.cls p).pri) (p :: ledger) := by
  intro prio
  have hledger : ∀ q, q ∈ p :: ledger ∧ (c.cls q).leaf ∧ (c.cls q).pri = prio ↔
      q = p ∧ (c.cls p).pri = prio ∨ q ∈ ledger ∧ (c.cls q).leaf ∧ (c.cls q).pri = prio := by
    intro q
    rw [mem_cons, or_and_right]
    refine or_congr_left ⟨?_, ?_⟩
    · rintro ⟨rfl, -, heq⟩
      exact ⟨rfl, heq⟩
    · rintro ⟨rfl, heq⟩
      exact ⟨rfl, hleaf, heq⟩
  simp only [hledger]
  obtain ⟨l, hring, hmem⟩ := h prio
  have hpl : p ∉ l := fun hin => hp ((hmem p).1 hin).1
  cases hactive : s.active (c.cls p).pri with
  | none =>
    obtain ⟨hactive', hpeer⟩ := join_of_none (p := p) hactive
    rw [hactive', hpeer]
    by_cases hprio : (c.cls p).pri = prio
    · -- the first class of its priority
      subst hprio
      rw [hring.eq_nil_iff.1 hactive] at hmem
      refine ⟨[p], by rw [update_self]; exact Ring.alone _ p, fun q => ?_⟩
      rw [← hmem q, mem_singleton]
      simp
    · refine ⟨l, by rw [update_of_ne (Ne.symm hprio)]; exact hring.update hpl _,
        fun q => ?_⟩
      rw [hmem q]
      simp [hprio]
  | some h' =>
    obtain ⟨hactive', hpeer⟩ := join_of_some (p := p) hactive
    rw [hactive', hpeer]
    by_cases hprio : (c.cls p).pri = prio
    · subst hprio
      rw [hactive] at hring ⊢
      obtain ⟨t, rfl⟩ := head?_eq_some_iff.1 hring.head.symm
      refine ⟨h' :: p :: t, hring.insert hpl, fun q => ?_⟩
      rw [← hmem q]
      simp only [mem_cons, and_true]
      tauto
    · -- another circular list has neither class
      obtain ⟨l', hring', hmem'⟩ := h (c.cls p).pri
      have hin : h' ∈ l' := mem_of_head? (hring'.head.symm.trans hactive)
      have hnot : h' ∉ l := fun hl => hprio (((hmem' h').1 hin).2.2.symm.trans ((hmem h').1 hl).2.2)
      refine ⟨l, (hring.update hpl _).update hnot _, fun q => ?_⟩
      rw [hmem q]
      simp [hprio]

theorem Books.join (h : Books c s ledger) (hp : p ∉ ledger) (hpri : ValidPri c p)
    (hleaf : (c.cls p).leaf) : Books c (s.join p (c.cls p).pri) (p :: ledger) := by
  refine ⟨h.rings.join hp hleaf, fun q hq hqleaf => ?_⟩
  rw [join_maxprio]
  rcases mem_cons.1 hq with rfl | hin
  · exact ⟨hpri.1, le_max_right _ _⟩
  · obtain ⟨hpos, hle⟩ := h.bound q hin hqleaf
    exact ⟨hpos, le_max_of_le_left hle⟩

theorem Books.cons (h : Books c s ledger) (hleaf : ¬(c.cls p).leaf) : Books c s (p :: ledger) := by
  refine ⟨fun prio => ?_, fun q hq hqleaf => ?_⟩
  · obtain ⟨l, hring, hmem⟩ := h.rings prio
    refine ⟨l, hring, fun q => (hmem q).trans (and_congr_left fun ⟨hq, _⟩ => ?_)⟩
    rw [mem_cons, or_iff_right]
    rintro rfl
    exact hleaf hq
  · rcases mem_cons.1 hq with rfl | hin
    · exact absurd hqleaf hleaf
    · exact h.bound q hin hqleaf

theorem not_registered_join (hp : p ∉ ledger) : ¬Registered c (s.join p (c.cls p).pri) ledger := by
  intro h
  obtain ⟨l, hring, hmem⟩ := h (c.cls p).pri
  have hpl : p ∉ l := fun hin => hp ((hmem p).1 hin).1
  cases hactive : s.active (c.cls p).pri with
  | none =>
    obtain ⟨hactive', -⟩ := join_of_none (p := p) hactive
    rw [hactive', update_self] at hring
    exact hpl (mem_of_head? hring.head.symm)
  | some h' =>
    obtain ⟨hactive', hpeer⟩ := join_of_some (p := p) hactive
    rw [hactive', hpeer, hactive] at hring
    obtain ⟨b, hb, hnext⟩ := hring.next_mem (mem_of_head? hring.head.symm)
    rw [update_self] at hnext
    exact hpl (some.inj hnext ▸ hb)

/-- The classes that `deque` may choose have been visited. -/
def Seen (st : Scan) : Prop := ∀ e, st.eligible = some e ∨ st.first = some e → e ∈ st.visited

/-- From `st` on classes of `l` were visited, and all of them if none was found. -/
structure Walked (st : Scan) (l : List ℕ) (r : Bool × Scan) : Prop where
  visited : ∃ l', r.2.visited = st.visited ++ l' ∧ l' ⊆ l ∧ (r.1 = false → l ⊆ l')
  seen : Seen st → Seen r.2

section Walks

variable {l l' : List ℕ} {r r' : Bool × Scan} {v : ℕ → Scan → Bool × Scan} {w : Wrr} {h : ℕ}

theorem Walked.trans (hw : Walked st l r) (hr : r.1 = false) (hw' : Walked r.2 l' r') :
    Walked st (l ++ l') r' := by
  obtain ⟨m, hm, hsub, hall⟩ := hw.visited
  obtain ⟨m', hm', hsub', hall'⟩ := hw'.visited
  refine ⟨⟨m ++ m', ?_, ?_, fun hfalse => ?_⟩, hw'.seen ∘ hw.seen⟩
  · rw [hm', hm, append_assoc]
  · exact append_subset.2 ⟨subset_append_of_subset_left _ hsub,
      subset_append_of_subset_right _ hsub'⟩
  · exact append_subset.2 ⟨subset_append_of_subset_left _ (hall hr),
      subset_append_of_subset_right _ (hall' hfalse)⟩

theorem Walked.mono (hw : Walked st l r) (hl : l ⊆ l') (hl' : r.1 = false → l' ⊆ l) :
    Walked st l' r := by
  obtain ⟨m, hm, hsub, hall⟩ := hw.visited
  exact ⟨⟨m, hm, Subset.trans hsub hl, fun hfalse => Subset.trans (hl' hfalse) (hall hfalse)⟩,
    hw.seen⟩

theorem walked_visits (hv : ∀ cl st, Walked st [cl] (v cl st)) (l : List ℕ) (st : Scan) :
    Walked st l (visits v l st) := by
  induction l generalizing st with
  | nil => exact ⟨⟨[], (append_nil _).symm, Subset.refl _, fun _ => Subset.refl _⟩, id⟩
  | cons a l ih =>
    have ha := hv a st
    rw [visits]
    split_ifs with hfound
    · refine ha.mono (by simp) fun hfalse => ?_
      rw [hfound] at hfalse
      cases hfalse
    · exact ha.trans (Bool.eq_false_iff.2 hfound) (ih _)

theorem seen_enter (hseen : Seen st) (v : Look) (cl : ℕ) : Seen (st.enter c v cl) := by
  intro e he
  unfold Scan.enter at he ⊢
  dsimp only at he ⊢
  rw [mem_append, mem_singleton]
  rcases he with he | he
  · exact Or.inl (hseen e (Or.inl he))
  · split_ifs at he with hfirst
    · exact Or.inr (some.inj he).symm
    · exact Or.inl (hseen e (Or.inr he))

theorem mem_enter (c : Config) (v : Look) (cl : ℕ) (st : Scan) : cl ∈ (st.enter c v cl).visited :=
  mem_append_right _ (mem_singleton_self cl)

theorem walked_visit (c : Config) (look : ℕ → ℕ → Look) (cl : ℕ) (st : Scan) :
    Walked st [cl] (visit c look cl st) := by
  unfold visit
  dsimp only
  split_ifs with hfound
  · refine ⟨⟨[cl], rfl, Subset.refl _, fun _ => Subset.refl _⟩, fun hseen e he => ?_⟩
    rcases he with he | he
    · obtain rfl := some.inj he
      exact mem_enter c (look st.visited.length cl) cl st
    · exact seen_enter hseen _ cl e (Or.inr he)
  · exact ⟨⟨[cl], rfl, Subset.refl _, fun _ => Subset.refl _⟩,
      fun hseen => seen_enter hseen _ cl⟩

theorem walked_visitWrr (c : Config) (w : Wrr) (look : ℕ → ℕ → Look) (cl : ℕ) (st : Scan) :
    Walked st [cl] (visitWrr c w look cl st) := by
  unfold visitWrr
  dsimp only
  split_ifs with hfound
  · refine ⟨⟨[cl], rfl, Subset.refl _, fun _ => Subset.refl _⟩, fun hseen e he => ?_⟩
    rcases he with he | he
    · obtain rfl := some.inj he
      exact mem_enter c (look st.visited.length cl) cl st
    · exact seen_enter hseen _ cl e (Or.inr he)
  all_goals exact ⟨⟨[cl], rfl, Subset.refl _, fun _ => Subset.refl _⟩,
    fun hseen => seen_enter (c := c) hseen (look st.visited.length cl) cl⟩

theorem deficit_visits (l : List ℕ) (st : Scan) (hdeficit : st.deficit = 2)
    (hnot : (visits (visitWrr c w look) l st).1 = false) :
    (visits (visitWrr c w look) l st).2.deficit = 2 := by
  induction l generalizing st with
  | nil => exact hdeficit
  | cons a l ih =>
    rw [visits] at hnot ⊢
    split_ifs at hnot ⊢ with hfound
    · rw [hnot] at hfound
      cases hfound
    · refine ih _ ?_ hnot
      unfold visitWrr at hfound ⊢
      dsimp only at hfound ⊢
      split_ifs at hfound ⊢ with hsend hpermitted
      · exact absurd rfl hfound
      · refine absurd ⟨hpermitted, Or.inr ?_⟩ hsend
        change st.deficit > 1
        omega
      · exact hdeficit

theorem exists_rounds (c : Config) (look : ℕ → ℕ → Look)
    (hring : Ring s.peer (some h) (h :: l)) (w : Wrr) (st : Scan) :
    ∃ r, Scan.rounds c w look s.peer h st = some r ∧ Walked st (h :: l) r := by
  have hround : ∀ st : Scan, Walked st (h :: l) (visits (visitWrr c w look) (h :: l) st) :=
    fun st => walked_visits (walked_visitWrr c w look) _ st
  have htwo : ∀ st : Scan, st.deficit = 2 →
      ∃ r, Scan.rounds c w look s.peer h st = some r ∧ Walked st (h :: l) r := by
    intro st hdeficit
    refine ⟨visits (visitWrr c w look) (h :: l) st, ?_, hround st⟩
    rw [Scan.rounds, hring.around]
    simp only [bind_eq_bind, bind_some]
    split_ifs with hfound hone
    · rfl
    · rw [deficit_visits _ _ hdeficit (Bool.eq_false_iff.2 hfound)] at hone
      cases hone
    · rfl
  rw [Scan.rounds, hring.around]
  simp only [bind_eq_bind, bind_some]
  split_ifs with hfound hone
  · exact ⟨_, rfl, hround st⟩
  · obtain ⟨r, hr, hw⟩ := htwo { (visits (visitWrr c w look) (h :: l) st).2 with deficit := 2 } rfl
    have hw' : Walked (visits (visitWrr c w look) (h :: l) st).2 (h :: l) r := ⟨hw.visited, hw.seen⟩
    refine ⟨r, hr, ((hround st).trans (Bool.eq_false_iff.2 hfound) hw').mono ?_ fun _ => ?_⟩
    · exact append_subset.2 ⟨Subset.refl _, Subset.refl _⟩
    · exact subset_append_left _ _
  · exact ⟨_, rfl, hround st⟩

theorem exists_scanAt (c : Config) (look : ℕ → ℕ → Look)
    (hring : Ring s.peer (some h) (h :: l)) (st : Scan) :
    ∃ r, scanAt c look s h st = some r ∧ Walked st (h :: l) r := by
  unfold scanAt
  cases s.wrr with
  | none => exact ⟨_, hring.around, walked_visits (walked_visit c look) _ st⟩
  | some w =>
    obtain ⟨r, hr, hw⟩ := exists_rounds c look hring w { st with deficit := 0 }
    exact ⟨r, hr, hw.visited, hw.seen⟩

/-- The loop over the priorities visits the leaf classes of a priority from `prio` on. -/
theorem Books.exists_scanFrom (hs : Books c s ledger) (look : ℕ → ℕ → Look) (prio : ℤ) (st : Scan) :
    ∃ r l, scanFrom c look s prio st = some r ∧ Walked st l r ∧
      ∀ p, p ∈ l ↔ p ∈ ledger ∧ (c.cls p).leaf ∧ prio ≤ (c.cls p).pri := by
  fun_induction scanFrom c look s prio st with
  | case1 prio st hprio hactive ih =>
    obtain ⟨l, hring, hmem⟩ := hs.rings prio
    rw [hring.eq_nil_iff.1 hactive] at hmem
    obtain ⟨r, l', hr, hw, hl'⟩ := ih
    refine ⟨r, l', hr, hw, fun p => (hl' p).trans ?_⟩
    refine and_congr_right fun hp => and_congr_right fun hleaf => ⟨fun hle => by omega, fun hle => ?_⟩
    have hne : (c.cls p).pri ≠ prio := fun heq => not_mem_nil ((hmem p).2 ⟨hp, hleaf, heq⟩)
    omega
  | case2 prio st hprio cl hactive ih =>
    obtain ⟨l, hring, hmem⟩ := hs.rings prio
    rw [hactive] at hring
    obtain ⟨t, rfl⟩ := head?_eq_some_iff.1 hring.head.symm
    obtain ⟨r, hr, hw⟩ := exists_scanAt c look hring st
    obtain ⟨r', l', hr', hw', hl'⟩ := ih r
    rw [hr, bind_some]
    refine ⟨if r.1 then r else r', (cl :: t) ++ l', ?_, ?_, fun p => ?_⟩
    · split_ifs
      · rfl
      · exact hr'
    · split_ifs with hfound
      · refine hw.mono (subset_append_left _ _) fun hfalse => ?_
        rw [hfound] at hfalse
        cases hfalse
      · exact hw.trans (Bool.eq_false_iff.2 hfound) hw'
    · rw [mem_append, hmem p, hl' p, ← and_or_left, ← and_or_left]
      refine and_congr_right fun _ => and_congr_right fun _ => ?_
      omega
  | case3 prio st hprio =>
    refine ⟨_, [], rfl, ⟨⟨[], (append_nil _).symm, Subset.refl _,
      fun _ => Subset.refl _⟩, id⟩, fun p => ?_⟩
    refine iff_of_false not_mem_nil ?_
    rintro ⟨hp, hleaf, hle⟩
    have hbound := (hs.bound p hp hleaf).2
    omega

theorem Books.exists_scan (hs : Books c s ledger) (look : ℕ → ℕ → Look) :
    ∃ r, s.scan c look = some r ∧ (∀ p ∈ r.2.visited, p ∈ ledger ∧ (c.cls p).leaf) ∧
      (r.1 = false → ∀ p ∈ ledger, (c.cls p).leaf → p ∈ r.2.visited) ∧ Seen r.2 := by
  obtain ⟨r, l, hr, hw, hl⟩ :=
    hs.exists_scanFrom look 0 ⟨[], none, none, 0, s.bytesAlloc⟩
  obtain ⟨l', hvisited, hsub, hall⟩ := hw.visited
  rw [nil_append] at hvisited
  subst hvisited
  refine ⟨r, hr, fun p hp => ?_, fun hfalse p hp hleaf => ?_, hw.seen fun e he => ?_⟩
  · obtain ⟨hledger, hleaf, -⟩ := (hl p).1 (hsub hp)
    exact ⟨hledger, hleaf⟩
  · exact hall hfalse ((hl p).2 ⟨hp, hleaf, (hs.bound p hp hleaf).1⟩)
  · rcases he with he | he <;> cases he

theorem Books.scans (hs : Books c s ledger) : Scans c s ledger := fun look => by
  obtain ⟨r, hr, hvisited, hall, -⟩ := hs.exists_scan look
  exact ⟨r, hr, hvisited, hall⟩

end Walks

/-- A class that has sent is at the end of its circular list, or still the first one. -/
theorem Registered.turn {e : ℕ} (h : Registered c s ledger) (he : e ∈ ledger)
    (hleaf : (c.cls e).leaf) (o : Option ℕ) (ho : o = some e ∨ o = s.peer e) :
    Registered c { s with active := Function.update s.active (c.cls e).pri o } ledger := by
  intro prio
  obtain ⟨l, hring, hmem⟩ := h prio
  dsimp only
  by_cases hprio : (c.cls e).pri = prio
  · subst hprio
    have hin : e ∈ l := (hmem e).2 ⟨he, hleaf, rfl⟩
    obtain ⟨l', hperm, hring'⟩ : ∃ l', l'.Perm l ∧ Ring s.peer o l' := by
      rcases ho with rfl | rfl
      · obtain ⟨t, hperm, hring'⟩ := hring.from hin
        exact ⟨e :: t, hperm, hring'⟩
      · exact hring.turn hin
    rw [update_self]
    exact ⟨l', hring', fun p => hperm.mem_iff.trans (hmem p)⟩
  · rw [update_of_ne (Ne.symm hprio)]
    exact ⟨l, hring, hmem⟩

theorem Books.sent {e : ℕ} (hs : Books c s ledger) (he : e ∈ ledger) (hleaf : (c.cls e).leaf)
    (pending : Option ℤ) (found : Bool) : Books c (s.sent c pending found e) ledger := by
  unfold CBQueue.sent
  dsimp only
  split
  · refine ⟨hs.rings.turn he hleaf _ ?_, hs.bound⟩
    split_ifs <;> simp
  · exact ⟨hs.rings.turn he hleaf _ (Or.inr rfl), hs.bound⟩

theorem Books.deque (hs : Books c s ledger) (look : ℕ → ℕ → Look) (pending : Option ℤ) :
    ∃ s', s.deque c look pending = some s' ∧ Books c s' ledger := by
  obtain ⟨⟨found, st⟩, hscan, hvisited, -, hseen⟩ := hs.exists_scan look
  unfold CBQueue.deque
  rw [hscan, map_some]
  refine ⟨_, rfl, ?_⟩
  dsimp only at hvisited hseen ⊢
  have hs' : Books c { s with bytesAlloc := st.bytesAlloc } ledger := ⟨hs.rings, hs.bound⟩
  cases hchosen : st.eligible.or st.first with
  | none => exact hs'
  | some e =>
    have hmem : e ∈ st.visited := hseen e ((or_eq_some_iff.1 hchosen).imp_right And.right)
    obtain ⟨he, hleaf⟩ := hvisited e hmem
    exact hs'.sent he hleaf pending found

def act (c : Config) (s : CBQueue) : Op → Option (CBQueue × ℤ)
  | .insertClass p => insertClass c p s
  | .link bandwidth => some ({ s with link := some bandwidth }, 0)
  | .deque look pending => (s.deque c look pending).map (·, 0)

/-- The classes that have been inserted, after an operation with the answer `r`. -/
def after (ledger : List ℕ) (r : ℤ) : Op → List ℕ
  | .insertClass p => if r = 0 then p :: ledger else ledger
  | _ => ledger

/-- A class is inserted once. -/
def Fresh (ledger : List ℕ) : Op → Prop
  | .insertClass p => p ∉ ledger
  | _ => True

instance (ledger : List ℕ) : (op : Op) → Decidable (Fresh ledger op)
  | .insertClass p => inferInstanceAs (Decidable (p ∉ ledger))
  | .link _ => inferInstanceAs (Decidable True)
  | .deque _ _ => inferInstanceAs (Decidable True)

/-- The queue with the classes that have been inserted. -/
def machine (c : Config) : Machine (CBQueue × List ℕ) Op ℤ where
  step t op :=
    if Fresh t.2 op then (act c t.1 op).map fun (s, r) => ((s, after t.2 r op), r) else none

/-- A call that is turned down changes nothing, and exactly the classes inserted are scheduled. -/
def Right (c : Config) (t : CBQueue × List ℕ) (op : Op) : Prop :=
  Fresh t.2 op → ∃ s r, act c t.1 op = some (s, r) ∧
    (r = -1 → s.active = t.1.active ∧ s.levels = t.1.levels ∧ s.maxprio = t.1.maxprio ∧
      s.maxlevel = t.1.maxlevel) ∧
    Registered c s (after t.2 r op) ∧ Scans c s (after t.2 r op)

/-- A leaf class with a valid priority passes the later checks, too. -/
def Meets (c : Config) (t : CBQueue × List ℕ) (op : Op) : Prop :=
  Fresh t.2 op →
    match op with
    | .insertClass p => (c.cls p).leaf → ValidPri c p → Accepted c t.1 p
    | _ => True

theorem Books.insertClass (hs : Books c s ledger) (hp : p ∉ ledger)
    (hmeets : (c.cls p).leaf → ValidPri c p → Accepted c s p) :
    ∃ s' r, CBQueue.insertClass c p s = some (s', r) ∧
      (r = -1 → s'.active = s.active ∧ s'.levels = s.levels ∧ s'.maxprio = s.maxprio ∧
        s'.maxlevel = s.maxlevel) ∧ Books c s' (after ledger r (.insertClass p)) := by
  by_cases hpri : ValidPri c p
  · obtain ⟨s', r, hinsert, hsame, haccept, hreject⟩ := exists_insertClass hpri s
    by_cases hacc : Accepted c s p
    · obtain rfl := haccept hacc
      refine ⟨s', 0, hinsert, fun h => absurd h (by decide), Books.congr ?_ hsame⟩
      change Books c (joined c p s) (p :: ledger)
      unfold joined
      split_ifs with hleaf
      · exact hs.join hp hpri hleaf
      · exact hs.cons hleaf
    · obtain ⟨rfl, hlevels, hmaxlevel⟩ := hreject hacc
      have hleaf : ¬(c.cls p).leaf := fun hleaf => hacc (hmeets hleaf hpri)
      rw [joined_eq hleaf] at hsame
      exact ⟨s', -1, hinsert, fun _ => ⟨hsame.active, hlevels, hsame.maxprio, hmaxlevel⟩,
        hs.congr hsame⟩
  · exact ⟨s, -1, insertClass_of_invalid hpri s, fun _ => ⟨rfl, rfl, rfl, rfl⟩, hs⟩

theorem Books.act (hs : Books c s ledger) {op : Op} (hfresh : Fresh ledger op)
    (hmeets : Meets c (s, ledger) op) :
    ∃ s' r, CBQueue.act c s op = some (s', r) ∧
      (r = -1 → s'.active = s.active ∧ s'.levels = s.levels ∧ s'.maxprio = s.maxprio ∧
        s'.maxlevel = s.maxlevel) ∧ Books c s' (after ledger r op) := by
  cases op with
  | insertClass p => exact hs.insertClass hfresh (hmeets hfresh)
  | link bandwidth => exact ⟨_, 0, rfl, fun h => absurd h (by decide), hs.rings, hs.bound⟩
  | deque look pending =>
    obtain ⟨s', hs', hbooks⟩ := hs.deque look pending
    refine ⟨s', 0, ?_, fun h => absurd h (by decide), hbooks⟩
    change (s.deque c look pending).map _ = _
    rw [hs']
    rfl

theorem Books.right_iff (hs : Books c s ledger) (op : Op) :
    Right c (s, ledger) op ↔ Meets c (s, ledger) op := by
  constructor
  · intro hright hfresh
    cases op with
    | link => trivial
    | deque => trivial
    | insertClass p =>
      intro hleaf hpri
      by_contra hacc
      obtain ⟨s', r, hinsert, -, hregistered, -⟩ := hright hfresh
      obtain ⟨t, r', hinsert', hsame, -, hreject⟩ := exists_insertClass hpri s
      obtain ⟨rfl, rfl⟩ := Prod.mk.inj (some.inj (hinsert.symm.trans hinsert'))
      obtain ⟨rfl, -⟩ := hreject hacc
      have hjoined : joined c p s = s.join p (c.cls p).pri := if_pos hleaf
      rw [hjoined] at hsame
      refine not_registered_join (c := c) (s := s) hfresh (Registered.congr hregistered ?_)
      exact ⟨hsame.active.symm, hsame.peer.symm, hsame.maxprio.symm⟩
  · intro hmeets hfresh
    obtain ⟨s', r, hact, hunchanged, hbooks⟩ := hs.act hfresh hmeets
    exact ⟨s', r, hact, hunchanged, hbooks.rings, hbooks.scans⟩

theorem books_new (c : Config) (wrr : Bool) : Books c (new wrr) [] :=
  ⟨fun _ => ⟨[], Ring.nil, fun _ => by simp⟩, fun _ hq => absurd hq not_mem_nil⟩

/-- All calls of a run are right exactly when no leaf class is turned down after it has joined its
circular list. -/
theorem runsWith_right_iff_accepted (c : Config) (wrr : Bool) (ops : List Op) :
    (machine c).RunsWith (Right c) (new wrr, []) ops ↔
      (machine c).RunsWith (Meets c) (new wrr, []) ops := by
  refine Machine.runsWith_congr (I := fun t : CBQueue × List ℕ => Books c t.1 t.2) (fun t op h => h.right_iff op)
    (fun t op t' r h hright hstep => ?_) (books_new c wrr) ops
  change (if Fresh t.2 op then _ else none) = some _ at hstep
  by_cases hfresh : Fresh t.2 op
  · obtain ⟨s', r', hact, -, hbooks⟩ := h.act hfresh ((h.right_iff op).1 hright)
    rw [if_pos hfresh, hact] at hstep
    cases hstep
    exact hbooks
  · rw [if_neg hfresh] at hstep
    cases hstep

/-- A leaf class of priority 0 and a level that there is not. -/
def deepClass : Config := ⟨fun _ => ⟨0, 33, 0, true, false⟩, 1000⟩

/-- The class is turned down for its level and yet scheduled. -/
theorem not_runsWith_right_deep : ¬(machine deepClass).RunsWith (Right deepClass) (new false, [])
    [.link 8, .insertClass 0] := by
  intro h
  have hright := (h.2 ({ new false with link := some 8 }, []) 0 rfl).1
  have hs : Books deepClass { new false with link := some 8 } [] :=
    ⟨(books_new deepClass false).rings, (books_new deepClass false).bound⟩
  have hacc := (hs.right_iff (.insertClass 0)).1 hright not_mem_nil rfl (by decide)
  exact absurd hacc.2.2.2 (by decide)

end Ns2.CBQueue
