import Mathlib.Algebra.BigOperators.Group.Finset.Basic
import Mathlib.Data.Int.ConditionallyCompleteOrder
import Mathlib.Data.Int.Interval
import Ns2.Lib.FlowQueues
import Ns2.Lib.RoundRobin
import Ns2.Queue.Sfq

/-! `SFQ` serves its buckets in turn, as long as the hash stays in the array; and `clear` does not
end once the array is there. -/

namespace Ns2.Sfq

open FlowQueues RoundRobin List

variable {c : Config} {s s' : Sfq} {r r' : List ℤ} {f : ℤ} {p : Packet} {a : Option Packet}

def queues (s : Sfq) (f : ℤ) : List Packet := (s.bucket f).queue

/-- A bucket of the array. -/
def InArray (c : Config) (f : ℤ) : Prop := 0 ≤ f ∧ f < c.buckets

instance (c : Config) (f : ℤ) : Decidable (InArray c f) := inferInstanceAs (Decidable (_ ∧ _))

/-- The number of packets in the array. -/
noncomputable def stored (c : Config) (s : Sfq) : ℤ := ∑ f ∈ Finset.Ico 0 c.buckets, ((s.queues f).length : ℤ)

/-- The buckets on the circle from the active one on. -/
structure Rep (c : Config) (s : Sfq) (r : List ℤ) : Prop where
  allocated : s.allocated = true
  ring : s.circle.Rep r
  active : s.active = r.head?
  mem_iff : ∀ f, f ∈ r ↔ s.queues f ≠ []
  pkts : ∀ f, (s.bucket f).pkts = (s.queues f).length
  array : ∀ f ∈ r, InArray c f
  occupied : s.occupied = s.stored c
  le : s.occupied ≤ c.maxqueue

@[simp] theorem modify_bucket_self (f : ℤ) (u : PacketSFQ → PacketSFQ) (s : Sfq) :
    (s.modify f u).bucket f = u (s.bucket f) := Function.update_self _ _ _

@[simp] theorem modify_bucket_of_ne {f g : ℤ} (h : g ≠ f) (u : PacketSFQ → PacketSFQ) (s : Sfq) :
    (s.modify f u).bucket g = s.bucket g := Function.update_of_ne h _ _

theorem stored_congr (h : s'.bucket = s.bucket) : s'.stored c = s.stored c := by
  unfold stored queues
  rw [h]

theorem stored_modify (hf : InArray c f) (u : PacketSFQ → PacketSFQ) (s : Sfq) :
    (s.modify f u).stored c = s.stored c + ((u (s.bucket f)).queue.length - (s.queues f).length) := by
  have hmem : f ∈ Finset.Ico 0 c.buckets := Finset.mem_Ico.2 hf
  have hrest : ∀ g ∈ (Finset.Ico 0 c.buckets).erase f,
      (((s.modify f u).queues g).length : ℤ) = (s.queues g).length := by
    intro g hg
    rw [queues, modify_bucket_of_ne (Finset.ne_of_mem_erase hg)]
    rfl
  unfold stored
  rw [← Finset.add_sum_erase _ _ hmem, ← Finset.add_sum_erase _ _ hmem, Finset.sum_congr rfl hrest,
    queues, modify_bucket_self]
  omega

theorem rep_fresh (hmax : 0 ≤ c.maxqueue) : (fresh c).Rep c [] where
  allocated := rfl
  ring := Circle.Rep.nil
  active := rfl
  mem_iff f := by simp [queues, fresh]
  pkts f := rfl
  array f hf := absurd hf not_mem_nil
  occupied := (Finset.sum_eq_zero fun _ _ => rfl).symm
  le := hmax

theorem Rep.activate (h : s.circle.Rep r) (hactive : s.active = r.head?) (hf : f ∉ r) :
    ∃ k : Circle ℤ, s.activate f = some { s with circle := k, active := (r ++ [f]).head? } ∧
      k.Rep (r ++ [f]) := by
  cases r with
  | nil =>
    refine ⟨s.circle.alone f, ?_, Circle.Rep.alone f s.circle⟩
    simp [Sfq.activate, hactive]
  | cons h' t =>
    obtain ⟨k, hk, hrep⟩ := h.insert hf
    refine ⟨k, ?_, hrep⟩
    simp [Sfq.activate, hactive, hk]

theorem Rep.idle {t : List ℤ} (h : s.circle.Rep (f :: t)) (hactive : s.active = some f) :
    ∃ k : Circle ℤ, s.idle f = some { s with circle := k, active := t.head? } ∧ k.Rep t := by
  by_cases ht : t = []
  · subst ht
    refine ⟨s.circle, ?_, Circle.Rep.nil⟩
    have hnext : s.circle.next f = some f := h.next
    simp [Sfq.idle, hactive, hnext]
  · obtain ⟨k, hk, hrep, hnext⟩ := h.remove ht
    refine ⟨k, ?_, hrep⟩
    have hloop : s.circle.next f ≠ some f := by
      obtain ⟨n, t, rfl⟩ := exists_cons_of_ne_nil ht
      intro hloop
      have hfn : n = f := Option.some.inj (h.next.symm.trans hloop)
      exact (nodup_cons.1 h.nodup).1 (hfn ▸ mem_cons_self)
    simp [Sfq.idle, hactive, hloop, hk, hnext]

theorem Rep.modify {t : Sfq} {u : PacketSFQ → PacketSFQ} (h : s.Rep c r)
    (hbucket : t.bucket = s.bucket) (hallocated : t.allocated = true) (hring : t.circle.Rep r')
    (hactive : t.active = r'.head?) (hmem : ∀ x, x ≠ f → (x ∈ r' ↔ x ∈ r))
    (hf : f ∈ r' ↔ (u (s.bucket f)).queue ≠ [])
    (hpkts : (u (s.bucket f)).pkts = (u (s.bucket f)).queue.length) (harray : InArray c f)
    (hoccupied : t.occupied =
      s.occupied + ((u (s.bucket f)).queue.length - (s.queues f).length))
    (hle : t.occupied ≤ c.maxqueue) : (t.modify f u).Rep c r' where
  allocated := hallocated
  ring := hring
  active := hactive
  mem_iff x := by
    by_cases hx : x = f
    · rw [hx, queues, modify_bucket_self, hbucket]
      exact hf
    · rw [queues, modify_bucket_of_ne hx, hbucket, hmem x hx]
      exact h.mem_iff x
  pkts x := by
    by_cases hx : x = f
    · rw [hx, queues, modify_bucket_self, hbucket]
      exact hpkts
    · rw [queues, modify_bucket_of_ne hx, hbucket]
      exact h.pkts x
  array x hx := by
    by_cases hxf : x = f
    · exact hxf ▸ harray
    · exact h.array x ((hmem x hxf).1 hx)
  occupied := by
    have hstored := stored_modify harray u t
    have hqueue : t.queues f = s.queues f := by rw [queues, hbucket, queues]
    rw [stored_congr hbucket, hbucket, hqueue] at hstored
    change t.occupied = _
    rw [hstored, hoccupied, h.occupied]
  le := hle

theorem Rep.put (h : s.Rep c r) (hf : InArray c f) (hle : s.occupied < c.maxqueue) (p : Packet) :
    ∃ s' r', s.put p f = some s' ∧ s'.Rep c r' ∧ Turn r none r' ∧
      s'.queues = Function.update s.queues f (s.queues f ++ [p]) := by
  have hpkts := h.pkts f
  have hqueues : ∀ t : Sfq, t.bucket = s.bucket → (t.modify f fun q =>
      ⟨q.queue ++ [p], q.pkts + 1⟩).queues = Function.update s.queues f (s.queues f ++ [p]) := by
    intro t ht
    funext g
    by_cases hg : g = f
    · rw [hg, Function.update_self, queues, modify_bucket_self, ht]
      rfl
    · rw [Function.update_of_ne hg, queues, modify_bucket_of_ne hg, ht]
      rfl
  by_cases hmem : f ∈ r
  · have hpos := length_pos_iff.2 ((h.mem_iff f).1 hmem)
    refine ⟨_, r, ?_, ?_, Turn.stay r, hqueues { s with occupied := s.occupied + 1 } rfl⟩
    · rw [Sfq.put, if_neg]
      simp only [modify_bucket_self]
      omega
    · refine h.modify rfl h.allocated h.ring h.active (fun _ _ => Iff.rfl) (by simp [hmem]) ?_ hf ?_ hle
      · rw [hpkts, queues]
        simp
      · simp [queues]
  · have hnil : s.queues f = [] := by_contra fun hne => hmem ((h.mem_iff f).2 hne)
    obtain ⟨k, hact, hk⟩ := Rep.activate (s := { s with occupied := s.occupied + 1 }.modify f
      fun q => ⟨q.queue ++ [p], q.pkts + 1⟩) h.ring h.active hmem
    refine ⟨_, r ++ [f], ?_, ?_, Turn.join hmem,
      hqueues { s with occupied := s.occupied + 1, circle := k, active := (r ++ [f]).head? } rfl⟩
    · rw [hnil] at hpkts
      rw [Sfq.put, if_pos, hact]
      · rfl
      · rw [modify_bucket_self, hpkts]
        rfl
    · refine h.modify rfl h.allocated hk rfl (fun x hx => by simp [hx]) (by simp) ?_ hf ?_ hle
      · rw [hpkts, queues]
        simp
      · simp [queues]

theorem Rep.enque (h : s.Rep c r) (hf : InArray c (which c p)) :
    ∃ s' a r', s.enque c p = some (s', a) ∧ s'.Rep c r' ∧ Turn r none r' ∧
      Passes (which c) s.queues (if a = none then [p] else []) [] s'.queues := by
  have hready : s.ready c = some s := if_pos h.allocated
  have harray : 0 ≤ which c p ∧ which c p < c.buckets := hf
  unfold Sfq.enque
  rw [hready, Option.bind_some]
  dsimp only
  rw [if_pos harray]
  by_cases hrefuses : s.Refuses c (which c p)
  · refine ⟨s, some p, r, if_pos hrefuses, h, Turn.stay r, ?_⟩
    exact Passes.refl _ _
  · have hleft : s.occupied < c.maxqueue := by
      rw [Refuses, not_or, not_or] at hrefuses
      omega
    obtain ⟨s', r', hput, hrep, hturn, hqueues⟩ := h.put hf hleft p
    refine ⟨s', none, r', by rw [if_neg hrefuses, hput]; rfl, hrep, hturn, ?_⟩
    rw [if_pos rfl]
    refine Passes.push rfl ?_ fun g hg => ?_
    · rw [hqueues, Function.update_self]
    · rw [hqueues, Function.update_of_ne hg]

/-- The active bucket sends a packet and goes to the end of the circle, or leaves with its last
one. -/
theorem Rep.serve {t : List ℤ} (h : s.Rep c (f :: t)) :
    ∃ s' p r', s.serve f = some (s', some p) ∧ s'.Rep c r' ∧ Turn (f :: t) (some f) r' ∧
      s.queues f = p :: s'.queues f ∧ ∀ g, g ≠ f → s'.queues g = s.queues g := by
  have hmem : f ∈ f :: t := mem_cons_self
  obtain ⟨p, rest, hq⟩ := exists_cons_of_ne_nil ((h.mem_iff f).1 hmem)
  have hpkts := h.pkts f
  have hlength : (s.queues f).length = rest.length + 1 := by rw [hq, length_cons]
  have hqueue : (s.bucket f).queue = p :: rest := hq
  have hle := h.le
  have hqueues : ∀ t : Sfq, t.bucket = s.bucket → (t.modify f fun q =>
      ⟨q.queue.tail, q.pkts - 1⟩).queues f = rest ∧ ∀ g, g ≠ f → (t.modify f fun q =>
      ⟨q.queue.tail, q.pkts - 1⟩).queues g = s.queues g := by
    intro t ht
    refine ⟨?_, fun g hg => ?_⟩
    · rw [queues, modify_bucket_self, ht, hqueue]
      rfl
    · rw [queues, modify_bucket_of_ne hg, ht]
      rfl
  have hcount : ((s.bucket f).pkts - 1 = 0) ↔ rest = [] := by
    rw [hpkts, hlength, ← length_eq_zero_iff]
    omega
  unfold Sfq.serve
  dsimp only
  rw [modify_bucket_self, hqueue, head?_cons]
  by_cases hrest : rest = []
  · obtain ⟨k, hidle, hk⟩ := Rep.idle (s := { s with occupied := s.occupied - 1 }.modify f
      fun q => ⟨q.queue.tail, q.pkts - 1⟩) h.ring h.active
    have hsame := hqueues { s with occupied := s.occupied - 1, circle := k, active := t.head? } rfl
    refine ⟨_, p, t, by rw [if_pos (hcount.2 hrest), hidle]; rfl, ?_, Turn.leave f t, ?_, hsame.2⟩
    · refine h.modify rfl h.allocated hk rfl (fun x hx => by simp [hx]) ?_ ?_ (h.array f hmem) ?_ ?_
      · rw [hqueue, tail_cons, hrest]
        simpa using (nodup_cons.1 h.ring.nodup).1
      · rw [hqueue, tail_cons, hpkts, hlength]
        dsimp only
        omega
      · rw [hqueue, tail_cons, hlength]
        dsimp only
        omega
      · dsimp only
        omega
    · rw [hq]
      exact congrArg (p :: ·) hsame.1.symm
  · have hsame := hqueues { s with
      occupied := s.occupied - 1, active := s.circle.next f } rfl
    have hring : s.circle.Rep (t ++ [f]) := h.ring.rotate (isRotated_concat f t).symm
    refine ⟨_, p, t ++ [f], by rw [if_neg (hcount.not.2 hrest)]; rfl, ?_, Turn.pass f t, ?_, hsame.2⟩
    · refine h.modify rfl h.allocated hring h.ring.next (fun x hx => by simp [hx]) ?_ ?_ (h.array f hmem) ?_ ?_
      · rw [hqueue, tail_cons]
        simpa using hrest
      · rw [hqueue, tail_cons, hpkts, hlength]
        dsimp only
        omega
      · rw [hqueue, tail_cons, hlength]
        dsimp only
        omega
      · dsimp only
        omega
    · rw [hq]
      exact congrArg (p :: ·) hsame.1.symm

/-- The packets of a run that are to be queued. -/
def arrivals (os : List SfqOp) : List Packet :=
  os.filterMap fun
    | .enque pkt => some pkt
    | .deque => none

theorem arrivals_append (os os' : List SfqOp) :
    arrivals (os ++ os') = arrivals os ++ arrivals os' := filterMap_append ..

/-- Those that were not dropped. -/
def kept : List SfqOp → List (Option Packet) → List Packet
  | .enque pkt :: os, a :: as => (if a = none then [pkt] else []) ++ kept os as
  | .deque :: os, _ :: as => kept os as
  | _, _ => []

/-- The packets dequeued. -/
def sent : List SfqOp → List (Option Packet) → List Packet
  | .enque _ :: os, _ :: as => sent os as
  | .deque :: os, a :: as => a.toList ++ sent os as
  | _, _ => []

theorem kept_cons (o : SfqOp) (os : List SfqOp) (a : Option Packet) (as : List (Option Packet)) :
    kept (o :: os) (a :: as) = kept [o] [a] ++ kept os as := by
  cases o <;> simp [kept]

theorem sent_cons (o : SfqOp) (os : List SfqOp) (a : Option Packet) (as : List (Option Packet)) :
    sent (o :: os) (a :: as) = sent [o] [a] ++ sent os as := by
  cases o <;> simp [sent]

/-- What `ready` gives. -/
def opened (c : Config) (s : Sfq) : Sfq := if s.allocated then s else fresh c

theorem ready_eq (hbuckets : 0 < c.buckets) (s : Sfq) : s.ready c = some (s.opened c) := by
  unfold Sfq.ready initsfq opened
  rw [if_pos hbuckets]
  split <;> rfl

/-- What holds between two operations, also before the first one. -/
structure Stands (c : Config) (s : Sfq) (r : List ℤ) : Prop where
  rep : (s.opened c).Rep c r
  queues : (s.opened c).queues = s.queues
  active : (s.opened c).active = s.active
  housed : Housed (which c) s.queues

theorem stands_new (hmax : 0 ≤ c.maxqueue) : Stands c new [] :=
  ⟨rep_fresh hmax, rfl, rfl, fun _ _ hp => absurd hp not_mem_nil⟩

theorem Stands.mem_iff (h : Stands c s r) (f : ℤ) : f ∈ r ↔ s.queues f ≠ [] := by
  rw [h.rep.mem_iff f, h.queues]

theorem Stands.of_rep (h : s'.Rep c r') {ins outs : List Packet} (hs : Stands c s r)
    (hpasses : Passes (which c) s.queues ins outs s'.queues) : Stands c s' r' := by
  have hopened : s'.opened c = s' := if_pos h.allocated
  exact ⟨by rwa [hopened], by rw [hopened], by rw [hopened], hpasses.housed hs.housed⟩

theorem Stands.head (h : Stands c s r) : s.active = r.head? := h.active.symm.trans h.rep.active

theorem Stands.enque_opened (h : Stands c s r) (hbuckets : 0 < c.buckets) (p : Packet) :
    (s.opened c).enque c p = s.enque c p := by
  have hready : (s.opened c).ready c = s.ready c :=
    (if_pos h.rep.allocated).trans (ready_eq hbuckets s).symm
  unfold Sfq.enque
  rw [hready]

theorem Stands.step (h : Stands c s r) (hbuckets : 0 < c.buckets) {o : SfqOp}
    (ho : ∀ p ∈ arrivals [o], InArray c (which c p)) : ∃ s' a r', 
      (machine c).step s o = some (s', a) ∧ s'.allocated = true ∧ Stands c s' r' ∧
      Turn r ((sent [o] [a]).head?.map (which c)) r' ∧
      (o = .deque → (sent [o] [a]).head?.map (which c) = r.head?) ∧
      Passes (which c) s.queues (kept [o] [a]) (sent [o] [a]) s'.queues := by
  cases o with
  | enque p =>
    obtain ⟨s', a, r', henque, hrep, hturn, hpasses⟩ :=
      h.rep.enque (ho p (mem_singleton_self p))
    rw [h.queues] at hpasses
    refine ⟨s', a, r', ?_, hrep.allocated, h.of_rep hrep hpasses, hturn,
      fun heq => (SfqOp.noConfusion heq : False).elim, ?_⟩
    · rw [h.enque_opened hbuckets] at henque
      exact henque
    · simpa [kept, sent] using hpasses
  | deque =>
    change ∃ s' a r', s.deque c = some (s', a) ∧ _
    cases r with
    | nil =>
      have hdeque : s.deque c = some (s.opened c, none) := by
        simp only [Sfq.deque, ready_eq hbuckets, Option.bind_some, h.rep.active, head?_nil]
      have hpasses : Passes (which c) s.queues [] [] (s.opened c).queues := Passes.of_eq h.queues
      exact ⟨_, none, [], hdeque, h.rep.allocated, h.of_rep h.rep hpasses, Turn.stay [],
        fun _ => rfl, hpasses⟩
    | cons f t =>
      have hdeque : s.deque c = (s.opened c).serve f := by
        simp only [Sfq.deque, ready_eq hbuckets, Option.bind_some, h.rep.active, head?_cons]
      obtain ⟨s', p, r', hserve, hrep, hturn, hfirst, hother⟩ := h.rep.serve
      rw [h.queues] at hfirst hother
      obtain rfl : which c p = f := h.housed f p (hfirst ▸ mem_cons_self)
      have hpasses : Passes (which c) s.queues [] [p] s'.queues := Passes.pop rfl hfirst hother
      exact ⟨s', some p, r', hdeque.trans hserve, hrep.allocated, h.of_rep hrep hpasses, hturn,
        fun _ => rfl, hpasses⟩

/-- Both buckets have packets. -/
def Backlogged (b x : ℤ) (s : Sfq) : Prop := s.queues b ≠ [] ∧ s.queues x ≠ []

theorem Stands.run (h : Stands c s r) (hbuckets : 0 < c.buckets) {os : List SfqOp}
    (hos : ∀ p ∈ arrivals os, InArray c (which c p)) :
    ∃ s' as r', (machine c).run s os = some (s', as) ∧ (os ≠ [] → s'.allocated = true) ∧
      Stands c s' r' ∧ Passes (which c) s.queues (kept os as) (sent os as) s'.queues ∧
      ∀ b x, (machine c).RunsWith (fun s _ => Backlogged b x s) s os → Backlogged b x s' →
        Turns {b, x} r ((sent os as).map (which c)) r' := by
  induction os generalizing s r with
  | nil =>
    refine ⟨s, [], r, rfl, fun hne => absurd rfl hne, h, Passes.refl _ _, fun b x _ hlast => ?_⟩
    refine Turns.nil ?_
    rintro k (rfl | rfl)
    · exact (h.mem_iff k).2 hlast.1
    · exact (h.mem_iff k).2 hlast.2
  | cons o os ih =>
    have hcut : arrivals (o :: os) = arrivals [o] ++ arrivals os := arrivals_append [o] os
    rw [hcut, forall_mem_append] at hos
    obtain ⟨s₁, a, r₁, hstep, hallocated, h₁, hturn, -, hpasses⟩ := h.step hbuckets hos.1
    obtain ⟨s', as, r', hrun, hlater, h', hpasses', hturns⟩ := ih h₁ hos.2
    have hallocated' : s'.allocated = true := by
      by_cases hnil : os = []
      · subst hnil
        obtain ⟨rfl, -⟩ := Prod.mk.inj (Option.some.inj hrun)
        exact hallocated
      · exact hlater hnil
    refine ⟨s', a :: as, r', ?_, fun _ => hallocated', h', ?_, fun b x hok hlast => ?_⟩
    · rw [Machine.run_cons _ os hstep, hrun]
      rfl
    · rw [kept_cons, sent_cons]
      exact hpasses.trans hpasses'
    · obtain ⟨hb, hrest⟩ := (Machine.runsWith_cons_iff hstep).1 hok
      have hK : ∀ k ∈ ({b, x} : Set ℤ), k ∈ r := by
        rintro k (rfl | rfl)
        · exact (h.mem_iff k).2 hb.1
        · exact (h.mem_iff k).2 hb.2
      have hone : (sent [o] [a]).map (which c) = ((sent [o] [a]).head?.map (which c)).toList := by
        cases o with
        | enque p => rfl
        | deque => cases a <;> rfl
      rw [sent_cons, map_append, hone]
      exact Turns.cons hK hturn (hturns b x hrest hlast)

/-- The operation is a turn of bucket `b`, or finds it empty. -/
def Begins (b : ℤ) (s : Sfq) : SfqOp → Prop
  | .enque _ => s.queues b = []
  | .deque => s.active = some b

/-- From its turn, or from the packet that brings it back, to its next turn bucket `b` waits for
exactly one turn of each bucket that has packets all the time. -/
def FairRounds (c : Config) (ops : List SfqOp) : Prop :=
  ∀ os₁ o os₂ os₃ s₀ as₀ s₁ a s₂ as₂ b x, ops = os₁ ++ o :: (os₂ ++ .deque :: os₃) →
    (machine c).run new os₁ = some (s₀, as₀) → (machine c).step s₀ o = some (s₁, a) → Begins b s₀ o →
    (machine c).run s₁ os₂ = some (s₂, as₂) → s₂.active = some b →
    b ∉ (sent os₂ as₂).map (which c) → x ≠ b →
    (machine c).RunsWith (fun s _ => Backlogged b x s) s₁ os₂ → Backlogged b x s₂ →
    ((sent os₂ as₂).map (which c)).count x = 1

theorem Backlogged.of_run {b x : ℤ} {os : List SfqOp} {as : List (Option Packet)}
    (hos : (machine c).RunsWith (fun s _ => Backlogged b x s) s os)
    (hrun : (machine c).run s os = some (s', as)) (hlast : Backlogged b x s') : Backlogged b x s := by
  cases os with
  | nil =>
    obtain ⟨rfl, -⟩ := Prod.mk.inj (Option.some.inj hrun)
    exact hlast
  | cons o os => exact hos.1

theorem fairRounds (hmax : 0 ≤ c.maxqueue) (hbuckets : 0 < c.buckets) {ops : List SfqOp}
    (hops : ∀ p ∈ arrivals ops, InArray c (which c p)) : FairRounds c ops := by
  intro os₁ o os₂ os₃ s₀ as₀ s₁ a s₂ as₂ b x hcut hrun₁ hstep hbegins hrun₂ hactive hb hxb hok hlast
  have hsplit : arrivals ops = arrivals os₁ ++ (arrivals [o] ++ (arrivals os₂ ++ arrivals (.deque :: os₃))) := by
    rw [hcut, ← arrivals_append, ← arrivals_append, ← arrivals_append]
    rfl
  simp only [hsplit, forall_mem_append] at hops
  obtain ⟨hos₁, ho, hos₂, -⟩ := hops
  obtain ⟨_, _, r₀, hrun, -, h₀, -⟩ := (stands_new hmax).run hbuckets hos₁
  obtain ⟨rfl, rfl⟩ := Prod.mk.inj (Option.some.inj (hrun₁.symm.trans hrun))
  obtain ⟨_, _, r₁, hstep', -, h₁, hturn, hserved, -⟩ := h₀.step hbuckets ho
  obtain ⟨rfl, rfl⟩ := Prod.mk.inj (Option.some.inj (hstep.symm.trans hstep'))
  obtain ⟨_, _, r₂, hrun', -, h₂, -, hturns⟩ := h₁.run hbuckets hos₂
  obtain ⟨rfl, rfl⟩ := Prod.mk.inj (Option.some.inj (hrun₂.symm.trans hrun'))
  have hr₀ := h₀.rep.ring.nodup
  -- `b` is at the end of the circle
  obtain ⟨t, rfl⟩ : ∃ t, r₁ = t ++ [b] := by
    refine hturn.last hr₀ ?_ ((h₁.mem_iff b).2 (Backlogged.of_run hok hrun₂ hlast).1)
    cases o with
    | enque p => exact Or.inr fun hmem => (h₀.mem_iff b).1 hmem hbegins
    | deque => exact Or.inl ((hserved rfl).trans (h₀.head.symm.trans hbegins))
  obtain ⟨t', rfl⟩ := head?_eq_some_iff.1 (h₂.head.symm.trans hactive)
  exact (hturns b x hok hlast).count_eq_one h₁.rep.ring.nodup hxb hb

end Ns2.Sfq
