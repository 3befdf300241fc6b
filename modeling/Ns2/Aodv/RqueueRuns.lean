import Ns2.Aodv.Rqueue

/-! Which packets `aodv_rqueue` can account for: all of them, as long as none waits too long. -/

namespace Ns2.Aodv

open List Option

inductive RqueueOp (P : Type) where
  | enque (p : P)
  | deque
  | dequeDst (dst : ℤ)
  | find (dst : ℤ)

/-- What is dropped, returned or found. -/
inductive RqueueAnswer (P : Type) where
  | enqued (dropped : Option (P × DropReason))
  | dequed (p : Option P)
  | found (b : Bool)

namespace RqueueAnswer

/-- The packet that has left the queue. -/
def gone {P : Type} : RqueueAnswer P → Option P
  | enqued dropped => dropped.map Prod.fst
  | dequed p => p
  | found _ => none

end RqueueAnswer

namespace Rqueue

open RqueueOp RqueueAnswer

variable {P : Type}

/-- An operation with the time of it; `daddr` are the destinations of the packets. -/
def machine [DecidableEq P] (daddr : P → ℤ) : Machine (Rqueue P) (ℚ × RqueueOp P) (RqueueAnswer P) where
  step q
    | (now, .enque p) => (q.enque now p).map fun r => (r.1, .enqued r.2)
    | (now, .deque) => (q.deque now).map fun r => (r.1, .dequed r.2)
    | (now, .dequeDst dst) => (q.dequeDst daddr now dst).map fun r => (r.1, .dequed r.2)
    | (_, .find dst) => (q.find daddr dst).map fun b => (q, .found b)

/-- The packets from one on. -/
def cells (next : P → Option P) : ℕ → Option P → List P
  | fuel + 1, some p => p :: cells next fuel (next p)
  | _, _ => []

/-- The packets in the queue. -/
def contents (q : Rqueue P) : List P := cells q.next q.len.toNat q.head

/-- The packet that an operation brings. -/
def arrival : ℚ × RqueueOp P → Option P
  | (_, .enque p) => some p
  | _ => none

/-- A packet is not brought while it is in the queue. -/
def Fresh (q : Rqueue P) (o : ℚ × RqueueOp P) : Prop := ∀ p, arrival o = some p → p ∉ q.contents

/-- No packet has been in the queue for longer than it may be, when one is brought or asked for. -/
def Timely (q : Rqueue P) : ℚ × RqueueOp P → Prop
  | (_, .find _) => True
  | (now, _) => ∀ p ∈ q.contents, now ≤ q.ts p

/-- Every packet brought is in the queue, or was returned or dropped, and those in the queue are in
the order in which they came. -/
structure Accounts (q : Rqueue P) (os : List (ℚ × RqueueOp P)) (as : List (RqueueAnswer P)) :
    Prop where
  conserved : (os.filterMap arrival).Perm (q.contents ++ as.filterMap gone)
  order : q.contents.Sublist (os.filterMap arrival)
  len : q.len = q.contents.length
  limit : q.len ≤ q.limit

variable {q q' : Rqueue P} {l : List P} {p : P} {now : ℚ} {daddr : P → ℤ} {dst : ℤ}
  {o : ℚ × RqueueOp P} {os : List (ℚ × RqueueOp P)}

theorem cells_of_seg {next : P → Option P} {o : Option P} (h : TailQueue.Seg next o l none) :
    cells next l.length o = l := by
  induction l generalizing o with
  | nil =>
    obtain rfl : o = none := h
    rfl
  | cons a l ih =>
    obtain ⟨rfl, h⟩ := h
    rw [length_cons, cells, ih h]

theorem Holds.contents (h : q.Holds l) : q.contents = l := by
  rw [Rqueue.contents, h.len, Int.toNat_natCast]
  exact cells_of_seg h.rep.seg

/-- What every operation keeps. -/
structure Inv (q : Rqueue P) (l : List P) : Prop extends q.Holds l where
  le : (l.length : ℤ) ≤ q.limit
  pos : 0 < q.limit

/-- The packets that are purged without being dropped. -/
def lost (l : List P) (q : Rqueue P) : ℚ × RqueueOp P → List P
  | (_, .find _) => []
  | (now, _) => l.filter fun p => q.ts p < now

theorem lost_eq_nil_iff (h : q.Holds l) : lost l q o = [] ↔ Timely q o := by
  obtain ⟨now, o⟩ := o
  have hfilter : (l.filter fun p => q.ts p < now) = [] ↔ ∀ p ∈ q.contents, now ≤ q.ts p := by
    rw [h.contents, filter_eq_nil_iff]
    simp
  cases o with
  | enque p => exact hfilter
  | deque => exact hfilter
  | dequeDst dst => exact hfilter
  | find dst => exact iff_of_true rfl trivial

theorem perm_purged (l : List P) (ts : P → ℚ) (now : ℚ) :
    l.Perm ((l.filter fun p => now ≤ ts p) ++ l.filter fun p => ts p < now) := by
  have hneg : (fun p => decide (ts p < now)) = fun p => !decide (now ≤ ts p) := by
    funext p
    rw [← decide_not]
    simp
  rw [hneg]
  exact (filter_append_perm _ l).symm

/-- One operation: where the packets are that were there, and the one that is brought. -/
structure Moves (q q' : Rqueue P) (l l' : List P) (o : ℚ × RqueueOp P) (a : RqueueAnswer P) :
    Prop where
  inv : q'.Inv l'
  perm : (l ++ (arrival o).toList).Perm (l' ++ (gone a).toList ++ lost l q o)
  order : l'.Sublist (l ++ (arrival o).toList)

variable [DecidableEq P]

instance decidableFresh (q : Rqueue P) (o : ℚ × RqueueOp P) : Decidable (Fresh q o) :=
  decidable_of_iff (∀ p ∈ (arrival o).toList, p ∉ q.contents) <| by
    simp only [mem_toList, Fresh]

theorem Inv.purge (h : q.Inv l) (now : ℚ) : ∃ q₁ l₁, q.purge now = some q₁ ∧ q₁.Inv l₁ ∧
    l.Perm (l₁ ++ l.filter fun p => q.ts p < now) ∧ l₁.Sublist l := by
  obtain ⟨q₁, hq₁, hholds, hsame⟩ := h.toHolds.purge now
  have hsub : (l.filter fun p => now ≤ q.ts p).Sublist l := filter_sublist
  have hlen := hsub.length_le
  have hle := h.le
  have hpos := h.pos
  have hlimit := hsame.limit
  exact ⟨q₁, _, hq₁, ⟨hholds, by omega, by omega⟩, perm_purged l q.ts now, hsub⟩

theorem Inv.makeRoom (h : q.Inv l) (now : ℚ) : ∃ q' d m, q.makeRoom now = some (q', d) ∧ q'.Holds m ∧
    SameTimes q q' ∧ q'.next = q.next ∧ l = (d.map Prod.fst).toList ++ m ∧
    (m.length : ℤ) < q.limit := by
  have hle := h.le
  have hpos := h.pos
  rw [Rqueue.makeRoom, h.len]
  split_ifs with hfull
  · cases l with
    | nil => simp only [length_nil, Nat.cast_zero] at hfull; omega
    | cons p₀ m =>
      obtain ⟨q', hq', hholds, hsame, hnext⟩ := h.removeHead_cons
      rw [length_cons] at hfull
      rw [hq']
      exact ⟨q', _, m, rfl, hholds, hsame, hnext, rfl, by omega⟩
  · exact ⟨q, none, l, rfl, h.toHolds, SameTimes.refl q, rfl, rfl, by omega⟩

theorem Inv.enque (h : q.Inv l) (hp : p ∉ l) (now : ℚ) : ∃ q' l' d, q.enque now p = some (q', d) ∧
    Moves q q' l l' (now, .enque p) (.enqued d) := by
  obtain ⟨q₁, l₁, hq₁, hinv, hpurged, hsub⟩ := h.purge now
  have hp₁ : p ∉ l₁ := fun hmem => hp (hsub.subset hmem)
  have hinv : Inv { q₁ with
      next := Function.update q₁.next p none
      ts := Function.update q₁.ts p (now + q₁.timeout) } l₁ := by
    refine ⟨⟨⟨hinv.rep.nodup, ?_, hinv.rep.tail⟩, hinv.len⟩, hinv.le, hinv.pos⟩
    exact (TailQueue.seg_update hp₁).2 hinv.rep.seg
  obtain ⟨q₂, d, m, hq₂, hholds₂, hsame₂, hnext₂, rfl, hroom⟩ := hinv.makeRoom now
  have hpm : p ∉ m := fun hmem => hp₁ (mem_append_right _ hmem)
  obtain ⟨q₃, hq₃, hholds₃, hsame₃⟩ := hholds₂.append hpm (by rw [hnext₂]; exact Function.update_self ..)
  refine ⟨q₃, m ++ [p], d, ?_, ⟨⟨hholds₃, ?_, ?_⟩, ?_, ?_⟩⟩
  · rw [Rqueue.enque, hq₁]
    simp only [bind_eq_bind, bind_some, hq₂, hq₃, hholds₃.verifyQueue]
  · rw [hsame₃.limit, hsame₂.limit, length_append, length_singleton]
    exact hroom
  · rw [hsame₃.limit, hsame₂.limit]
    exact hinv.pos
  · refine (hpurged.append_right [p]).trans (perm_iff_count.2 fun a => ?_)
    simp only [count_append, gone, lost]
    omega
  · exact ((sublist_append_right _ m).trans hsub).append (Sublist.refl [p])

theorem Inv.deque (h : q.Inv l) (now : ℚ) : ∃ q' l' p, q.deque now = some (q', p) ∧
    Moves q q' l l' (now, .deque) (.dequed p) := by
  obtain ⟨q₁, l₁, hq₁, hinv, hpurged, hsub⟩ := h.purge now
  cases l₁ with
  | nil =>
    obtain ⟨q₂, hq₂, hholds₂, hsame₂⟩ := hinv.removeHead_nil
    refine ⟨q₂, [], none, ?_, ⟨⟨hholds₂, hsame₂.limit ▸ hinv.le, hsame₂.limit ▸ hinv.pos⟩, ?_, nil_sublist _⟩⟩
    · rw [Rqueue.deque, hq₁]
      simp only [bind_eq_bind, bind_some, hq₂, hholds₂.verifyQueue]
    · simpa [gone, lost, arrival] using hpurged
  | cons p m =>
    obtain ⟨q₂, hq₂, hholds₂, hsame₂, -⟩ := hinv.removeHead_cons
    have hle := hinv.le
    rw [length_cons, ← hsame₂.limit] at hle
    refine ⟨q₂, m, some p, ?_, ⟨⟨hholds₂, by omega, hsame₂.limit ▸ hinv.pos⟩, ?_, ?_⟩⟩
    · rw [Rqueue.deque, hq₁]
      simp only [bind_eq_bind, bind_some, hq₂, hholds₂.verifyQueue]
    · refine (hpurged.append_right []).trans (perm_iff_count.2 fun a => ?_)
      simp only [count_append, count_cons, gone, lost, toList_some]
      omega
    · exact ((sublist_cons_self p m).trans hsub).trans (sublist_append_left _ _)

theorem Inv.dequeDst (h : q.Inv l) (daddr : P → ℤ) (now : ℚ) (dst : ℤ) : ∃ q' l' p,
    q.dequeDst daddr now dst = some (q', p) ∧ Moves q q' l l' (now, .dequeDst dst) (.dequed p) := by
  obtain ⟨q₁, l₁, hq₁, hinv, hpurged, hsub⟩ := h.purge now
  rcases hinv.findPacket (fun p => daddr p = dst) with
    ⟨-, prev, hfind⟩ | ⟨m, p, m', rfl, -, -, hfind⟩
  · refine ⟨q₁, l₁, none, ?_, ⟨hinv, ?_, ?_⟩⟩
    · rw [Rqueue.dequeDst, hq₁]
      simp only [bind_eq_bind, bind_some, findPacketWithDst, hfind]
    · simpa [gone, lost, arrival] using hpurged
    · exact hsub.trans (sublist_append_left _ _)
  · obtain ⟨q₂, hq₂, hholds₂, hsame₂⟩ := hinv.takeOut
    have hle := hinv.le
    rw [length_append, length_cons, ← hsame₂.limit] at hle
    refine ⟨q₂, m ++ m', some p, ?_, ⟨⟨hholds₂, ?_, hsame₂.limit ▸ hinv.pos⟩, ?_, ?_⟩⟩
    · rw [Rqueue.dequeDst, hq₁]
      simp only [bind_eq_bind, bind_some, findPacketWithDst, hfind, hq₂,
        hholds₂.verifyQueue]
    · rw [length_append]
      omega
    · refine (hpurged.append_right []).trans (perm_iff_count.2 fun a => ?_)
      simp only [count_append, count_cons, gone, lost, toList_some]
      omega
    · have hskip : (m ++ m').Sublist (m ++ p :: m') := (sublist_cons_self p m').append_left m
      exact (hskip.trans hsub).trans (sublist_append_left _ _)

theorem Inv.step (h : q.Inv l) (daddr : P → ℤ) (hfresh : Fresh q o) :
    ∃ q' l' a, (machine daddr).step q o = some (q', a) ∧ Moves q q' l l' o a := by
  obtain ⟨now, o⟩ := o
  cases o with
  | enque p =>
    obtain ⟨q', l', d, hq', hmoves⟩ := h.enque (h.contents ▸ hfresh p rfl) now
    refine ⟨q', l', .enqued d, ?_, hmoves⟩
    show (q.enque now p).map (fun r => (r.1, enqued r.2)) = _
    rw [hq', map_some]
  | deque =>
    obtain ⟨q', l', p, hq', hmoves⟩ := h.deque now
    refine ⟨q', l', .dequed p, ?_, hmoves⟩
    show (q.deque now).map (fun r => (r.1, dequed r.2)) = _
    rw [hq', map_some]
  | dequeDst dst =>
    obtain ⟨q', l', p, hq', hmoves⟩ := h.dequeDst daddr now dst
    refine ⟨q', l', .dequed p, ?_, hmoves⟩
    show (q.dequeDst daddr now dst).map (fun r => (r.1, dequed r.2)) = _
    rw [hq', map_some]
  | find dst =>
    obtain ⟨b, hb⟩ : ∃ b, q.find daddr dst = some b := by
      rcases h.findPacket (fun p => daddr p = dst) with ⟨-, prev, hfind⟩ | ⟨m, p, m', -, -, -, hfind⟩
      · exact ⟨_, by rw [Rqueue.find, findPacketWithDst, hfind]; rfl⟩
      · exact ⟨_, by rw [Rqueue.find, findPacketWithDst, hfind]; rfl⟩
    refine ⟨q, l, .found b, congrArg (Option.map fun b => (q, found b)) hb, h, ?_,
      sublist_append_left _ _⟩
    simp [gone, lost, arrival]

theorem Inv.run (h : q.Inv l) (daddr : P → ℤ) (hfresh : (machine daddr).RunsWith Fresh q os) :
    ∃ q' l' as ls, (machine daddr).run q os = some (q', as) ∧ q'.Inv l' ∧
      (l ++ os.filterMap arrival).Perm (l' ++ as.filterMap gone ++ ls) ∧
      l'.Sublist (l ++ os.filterMap arrival) ∧
      (ls = [] ↔ (machine daddr).RunsWith Timely q os) := by
  induction os generalizing q l with
  | nil => exact ⟨q, l, [], [], rfl, h, by simp, by simp, iff_of_true rfl trivial⟩
  | cons o os ih =>
    obtain ⟨q₁, l₁, a, hstep, hmoves⟩ := h.step daddr hfresh.1
    obtain ⟨q', l', as, ls, hrun, hinv, hperm, hsub, hls⟩ := ih hmoves.inv (hfresh.2 q₁ a hstep)
    have harrive : (o :: os).filterMap arrival = (arrival o).toList ++ os.filterMap arrival := by
      rw [filterMap_cons]
      cases arrival o <;> rfl
    have hgone : (a :: as).filterMap gone = (gone a).toList ++ as.filterMap gone := by
      rw [filterMap_cons]
      cases gone a <;> rfl
    refine ⟨q', l', a :: as, lost l q o ++ ls, ?_, hinv, ?_, ?_, ?_⟩
    · rw [Machine.run_cons _ _ hstep, hrun]
      rfl
    · rw [harrive, hgone, perm_iff_count]
      intro x
      have hx := perm_iff_count.1 hmoves.perm x
      have hx' := perm_iff_count.1 hperm x
      simp only [count_append] at hx hx' ⊢
      omega
    · rw [harrive, ← append_assoc]
      exact hsub.trans (hmoves.order.append_right _)
    · rw [append_eq_nil_iff, lost_eq_nil_iff h.toHolds, hls,
        Machine.runsWith_cons_iff hstep]

/-- The queue loses packets exactly when one has waited for too long. -/
theorem accounts_iff_timely (daddr : P → ℤ) (next : P → Option P) (ts : P → ℚ)
    (os : List (ℚ × RqueueOp P)) (hfresh : (machine daddr).RunsWith Fresh (new next ts) os) :
    (∃ q as, (machine daddr).run (new next ts) os = some (q, as) ∧ Accounts q os as) ↔
      (machine daddr).RunsWith Timely (new next ts) os := by
  have hinit : (new next ts).Inv [] :=
    ⟨⟨TailQueue.Rep.nil rfl rfl, rfl⟩, Int.natCast_nonneg aodvRtqMaxLen, Int.natCast_pos.2 (by decide)⟩
  obtain ⟨q, l, as, ls, hrun, hinv, hperm, hsub, hls⟩ := hinit.run daddr hfresh
  rw [nil_append] at hperm hsub
  rw [← hls]
  constructor
  · rintro ⟨q', as', hrun', hacc⟩
    obtain ⟨rfl, rfl⟩ := Prod.mk.inj (some.inj (hrun.symm.trans hrun'))
    have hlen := hacc.conserved.length_eq.symm.trans hperm.length_eq
    rw [hinv.contents] at hlen
    simp only [length_append] at hlen
    exact length_eq_zero_iff.1 (by omega)
  · rintro rfl
    rw [append_nil] at hperm
    refine ⟨q, as, hrun, ?_, ?_, ?_, ?_⟩
    · rwa [hinv.contents]
    · rwa [hinv.contents]
    · rw [hinv.contents, hinv.len]
    · rw [hinv.len]
      exact hinv.le

/-- A packet of 0 s that is asked for at 20 s, and one of 25 s that is asked for by its destination. -/
theorem accounts_iff_timely_sample :
    (∃ q as, (machine (P := ℕ) Int.ofNat).run (new (fun _ => none) fun _ => 0)
        [(0, .enque 1), (20, .deque), (25, .enque 2), (30, .dequeDst 2)] = some (q, as) ∧
      Accounts q [(0, .enque 1), (20, .deque), (25, .enque 2), (30, .dequeDst 2)] as) ↔
      (machine (P := ℕ) Int.ofNat).RunsWith Timely (new (fun _ => none) fun _ => 0)
        [(0, .enque 1), (20, .deque), (25, .enque 2), (30, .dequeDst 2)] :=
  accounts_iff_timely _ _ _ _ (by decide +kernel)

/-- A packet that is asked for after 31 s is neither returned nor dropped. -/
theorem not_accounts_purged :
    ¬∃ q as, (machine (P := ℕ) Int.ofNat).run (new (fun _ => none) fun _ => 0)
        [(0, .enque 1), (31, .deque)] = some (q, as) ∧
      Accounts q [(0, .enque 1), (31, .deque)] as := by
  have hrun : ((machine (P := ℕ) Int.ofNat).run (new (fun _ => none) fun _ => 0)
      [(0, .enque 1), (31, .deque)]).map (fun r => (r.1.contents, r.2.filterMap gone)) =
        some ([], []) := by decide +kernel
  rintro ⟨q, as, hq, hacc⟩
  rw [hq] at hrun
  obtain ⟨hcontents, hgone⟩ := Prod.mk.inj (some.inj hrun)
  have hconserved := hacc.conserved
  rw [hcontents, hgone] at hconserved
  exact absurd hconserved.length_eq (by decide)

end Rqueue

end Ns2.Aodv
