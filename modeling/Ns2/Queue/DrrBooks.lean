import Mathlib.Algebra.BigOperators.Group.Finset.Basic
import Mathlib.Data.Int.ConditionallyCompleteOrder
import Mathlib.Data.Int.Interval
import Ns2.Lib.FlowQueues
import Ns2.Queue.DrrFair

/-! The counters of a `DRR` and the circle of its buckets after any operations, and the order in
which the packets of a bucket leave. -/

namespace Ns2.Drr

open FlowQueues List

variable {c : Config} {M : ℤ} {s s' s₁ : Drr} {r : List ℤ} {f : ℤ} {p : Packet} {ps : List Packet}

def queues (s : Drr) (f : ℤ) : List Packet := (s.drr f).queue

/-- The answer is what leaves: the packets that are dropped, or the one dequeued. -/
def departures (c : Config) : Machine Drr DrrOp (List Packet) where
  step s
    | .enque pkt => s.enque c pkt
    | .deque => (s.deque c).map fun (s, pkt) => (s, pkt.toList)

/-- The packets of a run. -/
def arrivals (os : List DrrOp) : List Packet :=
  os.filterMap fun
    | .enque pkt => some pkt
    | .deque => none

section Frame

theorem queues_modify {u : PacketDRR → PacketDRR} (hu : ∀ q, (u q).queue = q.queue) :
    (s.modify f u).queues = s.queues := by
  funext g
  by_cases hg : g = f
  · rw [queues, hg, modify_drr_self]
    exact hu _
  · rw [queues, modify_drr_of_ne hg]
    rfl

theorem queues_activate (h : s.activate f = some s') : s'.queues = s.queues := by
  unfold activate at h
  split at h
  · obtain ⟨k, -, rfl⟩ := Option.map_eq_some_iff.1 h
    rfl
  · cases h
    rfl

theorem queues_idle (h : s.idle f = some s') : s'.queues = s.queues := by
  unfold idle at h
  split_ifs at h
  · cases h
    rfl
  · obtain ⟨k, -, rfl⟩ := Option.map_eq_some_iff.1 h
    rfl
  · obtain ⟨k, -, rfl⟩ := Option.map_eq_some_iff.1 h
    rfl

theorem queues_retire (h : s.retire f = some s') : s'.queues = s.queues := by
  obtain ⟨s₁, hs₁, rfl⟩ := Option.map_eq_some_iff.1 h
  have hidle := queues_idle hs₁
  exact hidle

theorem queues_start (h : s.start f = some s') : s'.queues = s.queues := by
  unfold start at h
  split_ifs at h
  · obtain ⟨s₁, hs₁, rfl⟩ := Option.map_eq_some_iff.1 h
    have hactivate := queues_activate hs₁
    refine Eq.trans (queues_modify (by exact fun _ => rfl)) ?_
    exact hactivate
  · cases h
    rfl

theorem queues_grant (c : Config) (f : ℤ) (s : Drr) : (s.grant c f).queues = s.queues := by
  unfold grant
  split_ifs
  · rfl
  · exact queues_modify fun _ => rfl

theorem queues_pass (f : ℤ) (s : Drr) : (s.pass f).queues = s.queues := queues_modify fun _ => rfl

end Frame

variable {fuel : ℕ} {o : DrrOp} {os : List DrrOp} {answers : List (List Packet)}

theorem passes_put (c : Config) (p : Packet) (s : Drr) :
    Passes (which c) s.queues [p] [] (s.put c p (which c p)).queues := by
  refine Passes.push rfl ?_ fun g hg => ?_
  · rw [queues, put, modify_drr_self]
    rfl
  · rw [queues, put, modify_drr_of_ne hg]
    rfl

section

variable (hs : Housed (which c) s.queues)
include hs

theorem passes_take (h : s.take f = some (s', p)) :
    Passes (which c) s.queues [] [p] s'.queues := by
  unfold take at h
  split at h
  · cases h
  · rename_i p' rest hq
    cases h
    have hp : p ∈ s.queues f := by
      rw [queues, hq]
      exact mem_cons_self
    refine Passes.pop (hs f p hp) ?_ fun g hg => ?_
    · rw [queues, hq, queues, modify_drr_self]
    · rw [queues, modify_drr_of_ne hg]
      rfl

theorem passes_dropOver {blimit : ℤ} (h : dropOver blimit fuel s = some (s', ps)) :
    Passes (which c) s.queues [] ps s'.queues ∧ s'.bytecnt ≤ blimit := by
  induction fuel generalizing s ps with
  | zero => cases h
  | succ fuel ih =>
    rw [dropOver] at h
    split_ifs at h with hover
    · obtain ⟨remq, -, h⟩ := Option.bind_eq_some_iff.1 h
      obtain ⟨⟨s₁, p⟩, htake, h⟩ := Option.bind_eq_some_iff.1 h
      obtain ⟨s₂, hret, h⟩ := Option.bind_eq_some_iff.1 h
      obtain ⟨⟨s₃, ps'⟩, hdrop, heq⟩ := Option.map_eq_some_iff.1 h
      cases heq
      have hqueues : s₂.queues = s₁.queues := by
        split_ifs at hret
        · exact queues_retire hret
        · cases hret
          rfl
      have hfirst := passes_take hs htake
      rw [← hqueues] at hfirst
      obtain ⟨hrest, hle⟩ := ih (hfirst.housed hs) hdrop
      exact ⟨hfirst.trans hrest, hle⟩
    · cases h
      exact ⟨Passes.refl _ _, not_lt.1 hover⟩

theorem passes_enque (h : s.enque c p = some (s', ps)) :
    Passes (which c) s.queues [p] ps s'.queues ∧ s'.bytecnt ≤ c.blimit := by
  unfold enque at h
  dsimp only at h
  split_ifs at h
  obtain ⟨s₁, hstart, hdrop⟩ := Option.bind_eq_some_iff.1 h
  have hput := passes_put c p s
  rw [← queues_start hstart] at hput
  obtain ⟨hrest, hle⟩ := passes_dropOver (hput.housed hs) hdrop
  exact ⟨hput.trans hrest, hle⟩

theorem passes_serve (h : s.serve f = some (s', p)) :
    Passes (which c) s.queues [] [p] s'.queues := by
  obtain ⟨⟨s₁, p'⟩, htake, h⟩ := Option.bind_eq_some_iff.1 h
  have hfirst := passes_take hs htake
  dsimp only at h
  split_ifs at h
  · obtain ⟨s₂, hret, heq⟩ := Option.map_eq_some_iff.1 h
    cases heq
    rw [queues_retire hret, queues_modify (by exact fun _ => rfl),
      queues_modify (by exact fun _ => rfl)]
    exact hfirst
  · cases h
    rw [queues_modify (by exact fun _ => rfl)]
    exact hfirst

theorem passes_dequeFrom (h : dequeFrom c fuel s = some (s', p)) :
    Passes (which c) s.queues [] [p] s'.queues := by
  induction fuel generalizing s with
  | zero => cases h
  | succ fuel ih =>
    rw [dequeFrom] at h
    obtain ⟨f, -, h⟩ := Option.bind_eq_some_iff.1 h
    obtain ⟨p', -, h⟩ := Option.bind_eq_some_iff.1 h
    have hgrant := queues_grant c f s
    split_ifs at h
    · rw [← hgrant] at hs ⊢
      exact passes_serve hs h
    · have hpass := (queues_pass f (s.grant c f)).trans hgrant
      rw [← hpass] at hs ⊢
      exact ih hs h

theorem passes_step (h : (departures c).step s o = some (s', ps)) :
    Passes (which c) s.queues (arrivals [o]) ps s'.queues := by
  cases o with
  | enque p => exact (passes_enque hs h).1
  | deque =>
    obtain ⟨⟨s₁, a⟩, hdeque, heq⟩ := Option.map_eq_some_iff.1 h
    cases heq
    unfold deque at hdeque
    split_ifs at hdeque
    · cases hdeque
      exact Passes.refl _ _
    · obtain ⟨⟨s₂, p⟩, hfrom, heq⟩ := Option.map_eq_some_iff.1 hdeque
      cases heq
      exact passes_dequeFrom hs hfrom

end

/-- A bucket of the array. -/
def InArray (c : Config) (f : ℤ) : Prop := 0 ≤ f ∧ f < c.buckets

instance (c : Config) (f : ℤ) : Decidable (InArray c f) := inferInstanceAs (Decidable (_ ∧ _))

/-- A packet has a size, and at most `M` bytes. -/
def Sized (M : ℤ) (o : DrrOp) : Prop := ∀ p ∈ arrivals [o], 0 < p.size ∧ p.size ≤ M

/-- The state describes its queues, all of them in the array. -/
structure Stands (c : Config) (M : ℤ) (r : List ℤ) (s : Drr) : Prop where
  rep : s.Rep c M r
  sound : (s.round r).Sound c.quantum M
  array : ∀ f ∈ r, InArray c f

theorem Rep.housed (h : s.Rep c M r) : Housed (which c) s.queues :=
  fun f p hp => ((h.counted f).packet p hp).2

theorem inArray_of_enque (h : s.enque c p = some (s', ps)) : InArray c (which c p) := by
  unfold enque at h
  dsimp only at h
  split_ifs at h with harray
  exact harray

theorem Stands.step (hQ : 0 < c.quantum) (hb : 0 ≤ c.blimit) (hM : 0 < M) (h : Stands c M r s)
    (ho : Sized M o) (hstep : (departures c).step s o = some (s', ps)) :
    ∃ r', Stands c M r' s' := by
  have hpasses := passes_step h.rep.housed hstep
  obtain ⟨r', hrep, hsound, harrive⟩ : ∃ r', s'.Rep c M r' ∧ (s'.round r').Sound c.quantum M ∧
      ∀ p ∈ arrivals [o], InArray c (which c p) := by
    cases o with
    | enque p =>
      have harray := inArray_of_enque hstep
      obtain ⟨s₁, ps₁, r', henque, hrep, hmoves⟩ :=
        h.rep.enque hb (ho p (mem_singleton_self p)) harray
      obtain ⟨rfl, -⟩ := Prod.mk.inj (Option.some.inj (henque.symm.trans hstep))
      refine ⟨r', hrep, ?_, fun p' hp' => mem_singleton.1 hp' ▸ harray⟩
      exact (hmoves c.quantum ∅ fun k hk => hk.elim).sound hM hQ h.sound
    | deque =>
      obtain ⟨s₁, a, r', hdeque, hrep, hmoves⟩ := h.rep.deque hQ h.sound
      obtain ⟨⟨s₂, a₂⟩, hdeque₂, heq⟩ := Option.map_eq_some_iff.1 hstep
      obtain ⟨rfl, -⟩ := Prod.mk.inj heq
      obtain ⟨rfl, -⟩ := Prod.mk.inj (Option.some.inj (hdeque.symm.trans hdeque₂))
      refine ⟨r', hrep, ?_, fun p hp => absurd hp not_mem_nil⟩
      exact (hmoves ∅ fun k hk => hk.elim).sound hM hQ h.sound
  refine ⟨r', hrep, hsound, fun f hf => ?_⟩
  obtain ⟨p, rest, hq⟩ := exists_cons_of_ne_nil ((hrep.mem_iff f).1 hf)
  have hp : p ∈ s'.queues f := by
    rw [queues, hq]
    exact mem_cons_self
  rcases hpasses.mem hp with hold | ⟨hnew, rfl⟩
  · exact h.array f ((h.rep.mem_iff f).2 (ne_nil_of_mem hold))
  · exact harrive p hnew

theorem stands_init (c : Config) (M : ℤ) : Stands c M [] init := by
  refine ⟨rep_init c M, ⟨nodup_nil, ?_, ?_⟩, ?_⟩ <;>
    exact fun f hf => absurd hf not_mem_nil

theorem exists_stands (hQ : 0 < c.quantum) (hb : 0 ≤ c.blimit) (hM : 0 < M)
    (hos : ∀ o ∈ os, Sized M o) (hrun : (departures c).run init os = some (s, answers)) :
    ∃ r, Stands c M r s := by
  have hsized : (departures c).RunsWith (fun _ o => Sized M o) init os :=
    Machine.runsWith_of_forall (departures c) (fun o ho _ => hos o ho) init
  refine hsized.keeps (I := fun s => ∃ r, Stands c M r s) ?_ hrun ⟨[], stands_init c M⟩
  rintro s o s' ps ⟨r, h⟩ ho hstep
  exact h.step hQ hb hM ho hstep

/-- The counters say what the buckets of the array hold, and exactly those with packets are on the
circle, the current one first. -/
structure Books (c : Config) (s : Drr) : Prop where
  pktcnt : s.pktcnt = ∑ f ∈ Finset.Ico 0 c.buckets, ((s.queues f).length : ℤ)
  bytecnt : s.bytecnt = ∑ f ∈ Finset.Ico 0 c.buckets, ((s.queues f).map Packet.size).sum
  flwcnt : s.flwcnt = ((Finset.Ico 0 c.buckets).filter fun f => s.queues f ≠ []).card
  bcount : ∀ f, (s.drr f).bcount = ((s.queues f).map Packet.size).sum
  ring : ∃ r, s.circle.Rep r ∧ s.curr = r.head? ∧ ∀ f, f ∈ r ↔ InArray c f ∧ s.queues f ≠ []

theorem sum_ico {n : ℤ} (hr : r.Nodup) (hmem : ∀ f ∈ r, 0 ≤ f ∧ f < n) {g : ℤ → ℤ}
    (hg : ∀ f, f ∉ r → g f = 0) : ∑ f ∈ Finset.Ico 0 n, g f = (r.map g).sum := by
  rw [← sum_toFinset g hr]
  refine (Finset.sum_subset (fun f hf => ?_) fun f _ hf => ?_).symm
  · exact Finset.mem_Ico.2 (hmem f (mem_toFinset.1 hf))
  · exact hg f fun h => hf (mem_toFinset.2 h)

theorem Stands.books (h : Stands c M r s) : Books c s := by
  have hnil : ∀ f, f ∉ r → s.queues f = [] := fun f hf =>
    by_contra fun hne => hf ((h.rep.mem_iff f).2 hne)
  refine ⟨?_, ?_, ?_, fun f => (h.rep.counted f).bcount, r, h.rep.ring, h.rep.curr, fun f => ?_⟩
  · rw [h.rep.pktcnt, total, sum_ico h.rep.ring.nodup h.array fun f hf => by rw [hnil f hf]; rfl]
    exact congrArg sum (map_congr_left fun f _ => (h.rep.counted f).pkts)
  · rw [h.rep.bytecnt, total, sum_ico h.rep.ring.nodup h.array fun f hf => by rw [hnil f hf]; rfl]
    exact congrArg sum (map_congr_left fun f _ => (h.rep.counted f).bcount)
  · have hset : ((Finset.Ico 0 c.buckets).filter fun f => s.queues f ≠ []) = r.toFinset := by
      ext f
      rw [Finset.mem_filter, Finset.mem_Ico, mem_toFinset, h.rep.mem_iff f]
      exact and_iff_right_of_imp fun hne => h.array f ((h.rep.mem_iff f).2 hne)
    rw [h.rep.flwcnt, hset, toFinset_card_of_nodup h.rep.ring.nodup]
  · rw [h.rep.mem_iff f]
    exact (and_iff_right_of_imp fun hne => h.array f ((h.rep.mem_iff f).2 hne)).symm

theorem arrivals_cons (o : DrrOp) (os : List DrrOp) :
    arrivals (o :: os) = arrivals [o] ++ arrivals os := by
  rw [← singleton_append]
  exact filterMap_append ..

theorem passes_run (hrun : (departures c).run s os = some (s', answers))
    (hs : Housed (which c) s.queues) :
    Passes (which c) s.queues (arrivals os) answers.flatten s'.queues := by
  induction os generalizing s answers with
  | nil =>
    obtain ⟨rfl, rfl⟩ : s = s' ∧ [] = answers := by simpa using hrun
    exact Passes.refl _ _
  | cons o os ih =>
    cases hstep : (departures c).step s o with
    | none => simp [Machine.run, hstep] at hrun
    | some q =>
      rw [Machine.run_cons _ os hstep] at hrun
      obtain ⟨t, ht, heq⟩ := Option.map_eq_some_iff.1 hrun
      obtain ⟨rfl, rfl⟩ := Prod.mk.inj heq
      have hfirst := passes_step hs hstep
      rw [arrivals_cons, flatten_cons]
      exact hfirst.trans (ih ht (hfirst.housed hs))

theorem Stands.deque (hQ : 0 < c.quantum) (h : Stands c M r s) :
    ∃ s' a, s.deque c = some (s', a) ∧ (a.isSome = true ↔ 0 < s.bytecnt) := by
  obtain ⟨s', a, r', hdeque, -⟩ := h.rep.deque hQ h.sound
  refine ⟨s', a, hdeque, ?_⟩
  have hnonneg : 0 ≤ s.bytecnt := by
    rw [h.rep.bytecnt]
    refine total_nonneg fun f _ => ?_
    rw [(h.rep.counted f).bcount]
    refine sum_nonneg fun n hn => ?_
    obtain ⟨p, hp, rfl⟩ := mem_map.1 hn
    exact ((h.rep.counted f).packet p hp).1.1.le
  unfold Drr.deque at hdeque
  split_ifs at hdeque with hzero
  · cases hdeque
    exact iff_of_false Bool.false_ne_true (by omega)
  · obtain ⟨q, -, heq⟩ := Option.map_eq_some_iff.1 hdeque
    cases heq
    exact iff_of_true rfl (by omega)

theorem exists_bound (ps : List Packet) : ∃ M : ℤ, 0 < M ∧ ∀ p ∈ ps, p.size ≤ M := by
  induction ps with
  | nil => exact ⟨1, one_pos, fun p hp => absurd hp not_mem_nil⟩
  | cons p ps ih =>
    obtain ⟨M, hM, hle⟩ := ih
    refine ⟨max p.size M, lt_max_of_lt_right hM, forall_mem_cons.2 ⟨le_max_left _ _, ?_⟩⟩
    exact fun p' hp' => (hle p' hp').trans (le_max_right _ _)

theorem sized_of_mem (hos : ∀ p ∈ arrivals os, 0 < p.size ∧ p.size ≤ M) : ∀ o ∈ os, Sized M o := by
  intro o ho p hp
  obtain ⟨o', ho', heq⟩ := mem_filterMap.1 hp
  rw [mem_singleton.1 ho'] at heq
  exact hos p (mem_filterMap.2 ⟨o, ho, heq⟩)

/-- What the queue promises of a sequence of operations. It comes to an end with the counters and the
circle right, what has left a bucket is what came first, `deque` ends, with a packet if there are
bytes, and after an `enque` there are not too many bytes. -/
def KeepsBooks (c : Config) (os : List DrrOp) : Prop :=
  ∃ s answers, (departures c).run init os = some (s, answers) ∧ Books c s ∧
    (∀ f, (arrivals os).filter (fun p => which c p = f) =
      answers.flatten.filter (fun p => which c p = f) ++ s.queues f) ∧
    (∃ s' a, s.deque c = some (s', a) ∧ (a.isSome = true ↔ 0 < s.bytecnt)) ∧
    ∀ os' p, os = os' ++ [.enque p] → s.bytecnt ≤ c.blimit

theorem inArray_of_run (hrun : (departures c).run init os = some (s, answers)) :
    ∀ p ∈ arrivals os, InArray c (which c p) := by
  intro p hp
  obtain ⟨o, ho, heq⟩ := mem_filterMap.1 hp
  have hall := (Machine.keeps_of_run (I := fun _ => True)
    (Q := fun o _ => ∀ p ∈ arrivals [o], InArray c (which c p)) (fun s o s' ps _ hstep => by
      refine ⟨trivial, fun p hp => ?_⟩
      cases o with
      | enque q =>
        rw [mem_singleton.1 hp]
        exact inArray_of_enque hstep
      | deque => cases hp) hrun trivial).2
  obtain ⟨k, hk, rfl⟩ := getElem_of_mem ho
  have hget := hall.get hk (hall.length_eq ▸ hk)
  exact hget p (mem_filterMap.2 ⟨_, mem_singleton_self _, heq⟩)

theorem Stands.exists_step (hQ : 0 < c.quantum) (hb : 0 ≤ c.blimit) (h : Stands c M r s)
    {o : DrrOp} (ho : Sized M o) (harray : ∀ p ∈ arrivals [o], InArray c (which c p)) :
    ∃ s' ps, (departures c).step s o = some (s', ps) := by
  cases o with
  | enque p =>
    obtain ⟨s', ps, -, henque, -⟩ :=
      h.rep.enque hb (ho p (mem_singleton_self p)) (harray p (mem_singleton_self p))
    exact ⟨s', ps, henque⟩
  | deque =>
    obtain ⟨s', a, hdeque, -⟩ := h.deque hQ
    exact ⟨s', a.toList, congrArg (Option.map _) hdeque⟩

/-- The promises are kept exactly where the buckets are in the array, as they are for addresses that
are not negative. -/
theorem keepsBooks_iff (hQ : 0 < c.quantum) (hb : 0 ≤ c.blimit) {os : List DrrOp}
    (hos : ∀ p ∈ arrivals os, 0 < p.size) :
    (KeepsBooks c os ↔ ∀ p ∈ arrivals os, InArray c (which c p)) ∧
      (0 < c.buckets → ∀ p : Packet, c.mask ≠ 0 ∨ 0 ≤ p.saddr.toInt → InArray c (which c p)) := by
  refine ⟨?_, fun hbuckets p => which_mem hbuckets⟩
  constructor
  · rintro ⟨s, answers, hrun, -⟩
    exact inArray_of_run hrun
  intro harray
  obtain ⟨M, hM, hle⟩ := exists_bound (arrivals os)
  have hsized := sized_of_mem fun p hp => ⟨hos p hp, hle p hp⟩
  have hok : (departures c).RunsWith
      (fun _ o => Sized M o ∧ ∀ p ∈ arrivals [o], InArray c (which c p)) init os := by
    refine Machine.runsWith_of_forall (departures c) (fun o ho _ => ⟨hsized o ho, fun p hp => ?_⟩) init
    obtain ⟨o', ho', heq⟩ := mem_filterMap.1 hp
    rw [mem_singleton.1 ho'] at heq
    exact harray p (mem_filterMap.2 ⟨o, ho, heq⟩)
  obtain ⟨s, answers, hrun, ⟨r, h⟩, -⟩ := hok.exists_run (I := fun s => ∃ r, Stands c M r s)
    (Q := fun _ _ => True) (fun s o ⟨r, h⟩ ho => by
      obtain ⟨s', ps, hstep⟩ := h.exists_step hQ hb ho.1 ho.2
      exact ⟨s', ps, hstep, h.step hQ hb hM ho.1 hstep, trivial⟩)
    ⟨[], stands_init c M⟩
  refine ⟨s, answers, hrun, h.books, ?_, h.deque hQ, ?_⟩
  · exact passes_run hrun fun f p hp => absurd hp not_mem_nil
  · rintro os' p rfl
    obtain ⟨s₁, as₁, ps, hrun₁, hstep, -⟩ := Machine.run_concat_eq_some (departures c) hrun
    obtain ⟨r₁, h₁⟩ := exists_stands hQ hb hM (fun o ho => hsized o (mem_append_left _ ho)) hrun₁
    exact (passes_enque h₁.rep.housed hstep).2

theorem keepsBooks_iff_emptied : KeepsBooks (pairConfig 3) emptied :=
  (keepsBooks_iff (by decide) (by decide) (by decide)).1.2 (by decide +kernel)

/-- The bucket of an address is negative. -/
theorem not_keepsBooks :
    ¬ ∀ os, (∀ p ∈ arrivals os, 0 < p.size) → KeepsBooks ⟨10, 25000, 250, 0⟩ os := by
  intro h
  obtain ⟨s, answers, hrun, -⟩ := h [.enque ⟨-2147483647, 1000⟩] (by decide)
  have hnone : (departures ⟨10, 25000, 250, 0⟩).run init [.enque ⟨-2147483647, 1000⟩] = none := rfl
  rw [hnone] at hrun
  cases hrun

end Ns2.Drr
