import Mathlib.Algebra.Order.Ring.Cast
import Mathlib.Data.Finset.Card
import Mathlib.Data.List.Chain
import Mathlib.Data.Nat.Find

/-! Shortest walks from a source: what a search that settles the nearest node next keeps, and
nodes that are followed downhill to a target. What a breadth-first search keeps, and that the
parents it leaves lead along shortest walks. -/

namespace Ns2

variable {V R α : Type*}

/-- A walk from `k` and its cost. -/
inductive Walk [Add R] [Zero R] (link : V → V → R → Prop) (k : V) : V → R → Prop
  | nil : Walk link k k 0
  | snoc {u v : V} {c x : R} (hwalk : Walk link k u c) (hlink : link u v x) :
    Walk link k v (c + x)

/-- The walk to `t` on which `next` leads from every node, and its cost. -/
inductive Trail [Add R] [Zero R] (link : V → V → R → Prop) (next : V → V) (t : V) : V → R → Prop
  | arrived : Trail link next t t 0
  | hop {u : V} {x c : R} (hlink : link u (next u) x) (htrail : Trail link next t (next u) c) :
    Trail link next t u (x + c)

section Walk

variable [AddCommMonoid R] {link : V → V → R → Prop} {k t u v : V} {c x : R}
variable {link' : V → V → R → Prop} {next : V → V}

theorem Walk.single (h : link k v x) : Walk link k v x := by
  have := Walk.snoc Walk.nil h
  rwa [zero_add] at this

theorem Walk.trans {d : R} (h : Walk link k u c) (h' : Walk link u v d) :
    Walk link k v (c + d) := by
  induction h' with
  | nil => rwa [add_zero]
  | snoc hwalk hlink ih =>
    rw [← add_assoc]
    exact ih.snoc hlink

theorem Walk.mono (hl : ∀ u v x, link u v x → link' u v x) (h : Walk link k v c) :
    Walk link' k v c := by
  induction h with
  | nil => exact Walk.nil
  | snoc hwalk hlink ih => exact ih.snoc (hl _ _ _ hlink)

theorem Trail.mono (hl : ∀ u v x, link u v x → link' u v x) (h : Trail link next t u c) :
    Trail link' next t u c := by
  induction h with
  | arrived => exact Trail.arrived
  | hop hlink htrail ih => exact Trail.hop (hl _ _ _ hlink) ih

theorem Walk.le_potential [LinearOrder R] [IsOrderedAddMonoid R] {φ : V → R}
    (hφ : ∀ u v x, link u v x → φ u ≤ x + φ v) (h : Walk link k v c) : φ k ≤ c + φ v := by
  induction h with
  | nil => exact (zero_add _).ge
  | snoc hwalk hlink ih =>
    rw [add_assoc]
    exact ih.trans (add_le_add_right (hφ _ _ _ hlink) _)

theorem Trail.of_potential [LinearOrder R] [IsOrderedCancelAddMonoid R] {d : V → R} (N : Finset V)
    (ht : d t = 0)
    (hstep : ∀ u ∈ N, u ≠ t →
      ∃ x, 0 < x ∧ link u (next u) x ∧ next u ∈ N ∧ d u = x + d (next u)) (hu : u ∈ N) :
    Trail link next t u (d u) := by
  -- the induction is on the number of nodes with a lower potential
  generalize hm : (N.filter fun v => d v < d u).card = m
  induction m using Nat.strong_induction_on generalizing u with
  | _ m ih =>
    by_cases hut : u = t
    · subst hut
      rw [ht]
      exact Trail.arrived
    · obtain ⟨x, hx, hlink, hnext, hd⟩ := hstep u hu hut
      have hlt : d (next u) < d u := by
        rw [hd]
        exact lt_add_of_pos_left _ hx
      have hcard : (N.filter fun v => d v < d (next u)).card < m := by
        rw [← hm]
        refine Finset.card_lt_card ⟨fun v hv => ?_, fun hsub => ?_⟩
        · rw [Finset.mem_filter] at hv ⊢
          exact ⟨hv.1, hv.2.trans hlt⟩
        · have := hsub (Finset.mem_filter.2 ⟨hnext, hlt⟩)
          exact lt_irrefl _ (Finset.mem_filter.1 this).2
      rw [hd]
      exact Trail.hop hlink (ih _ hcard hnext rfl)

end Walk

section Unit

variable [Ring R] [LinearOrder R] [IsStrictOrderedRing R] {link : V → V → R → Prop} {k v : V} {c : R}
variable {m : ℕ} {N : Finset V}

section

variable (hunit : ∀ u v x, link u v x → x = 1)
include hunit

omit [LinearOrder R] [IsStrictOrderedRing R] in
theorem Walk.natCast (h : Walk link k v c) :
    ∃ m : ℕ, c = m := by
  induction h with
  | nil => exact ⟨0, Nat.cast_zero.symm⟩
  | snoc hwalk hlink ih =>
    obtain ⟨m, rfl⟩ := ih
    exact ⟨m + 1, by rw [hunit _ _ _ hlink, Nat.cast_succ]⟩

theorem Walk.succ_cases (h : Walk link k v ((m + 1 : ℕ) : R)) :
    ∃ u, Walk link k u (m : R) ∧ link u v 1 := by
  generalize hc : ((m + 1 : ℕ) : R) = c at h
  cases h with
  | nil => exact absurd hc (Nat.cast_ne_zero.2 (Nat.succ_ne_zero m))
  | snoc hwalk hlink =>
    obtain rfl := hunit _ _ _ hlink
    rw [Nat.cast_succ] at hc
    exact ⟨_, add_right_cancel hc ▸ hwalk, hlink⟩

/-- On a shortest walk over links of cost 1 the nodes after the first are all different. -/
theorem Walk.exists_finset (hN : ∀ u v x, link u v x → v ∈ N)
    (h : Walk link k v (m : R)) (hmin : ∀ m' < m, ¬Walk link k v ((m' : ℕ) : R)) :
    ∃ S ⊆ N, S.card = m ∧ ∀ w ∈ S, ∃ m' ≤ m, Walk link k w ((m' : ℕ) : R) := by
  classical
  induction m generalizing v with
  | zero => exact ⟨∅, Finset.empty_subset N, rfl, fun w hw => absurd hw (Finset.notMem_empty w)⟩
  | succ m ih =>
    obtain ⟨u, hu, hlink⟩ := h.succ_cases hunit
    obtain ⟨S, hS, hcard, hreach⟩ := ih hu fun m' hm' hw => by
      refine hmin (m' + 1) (Nat.succ_lt_succ hm') ?_
      rw [Nat.cast_succ]
      exact hw.snoc hlink
    have hv : v ∉ S := fun hv => by
      obtain ⟨m', hm', hw⟩ := hreach v hv
      exact hmin m' (Nat.lt_succ_of_le hm') hw
    refine ⟨insert v S, Finset.insert_subset (hN _ _ _ hlink) hS, ?_, fun w hw => ?_⟩
    · rw [Finset.card_insert_of_notMem hv, hcard]
    · rcases Finset.mem_insert.1 hw with rfl | hw
      · exact ⟨m + 1, le_rfl, h⟩
      · obtain ⟨m', hm', hwalk⟩ := hreach w hw
        exact ⟨m', Nat.le_succ_of_le hm', hwalk⟩

theorem Walk.exists_le_card (hN : ∀ u v x, link u v x → v ∈ N)
    (h : Walk link k v c) : ∃ c', Walk link k v c' ∧ c' ≤ N.card := by
  classical
  obtain ⟨m, rfl⟩ := h.natCast hunit
  have hex : ∃ m : ℕ, Walk link k v (m : R) := ⟨m, h⟩
  obtain ⟨S, hS, hcard, -⟩ := Walk.exists_finset hunit hN (Nat.find_spec hex) fun m' hm' =>
    Nat.find_min hex hm'
  exact ⟨_, Nat.find_spec hex, Nat.cast_le.2 (hcard ▸ Finset.card_le_card hS)⟩

end

end Unit

section Search

variable [AddCommMonoid R] [LinearOrder R] [IsOrderedCancelAddMonoid R]
  {w : V → V → R} {cap : R} {k : V} {P : V → R → α → Prop} {S : Set V} {d d' : V → R}
  {a a' : V → α}

/-- A search for the nodes nearer than `cap`: those in `S` are settled, `d` bounds the distances,
and what is noted of a node in `a` says how it is reached. -/
structure Search (w : V → V → R) (cap : R) (k : V) (P : V → R → α → Prop) (S : Set V) (d : V → R)
    (a : V → α) : Prop where
  zero : d k = 0
  nonneg : ∀ v, 0 ≤ d v
  below : ∀ u ∈ S, d u < cap
  sorted : ∀ u ∈ S, ∀ v ∉ S, d u ≤ d v
  relaxed : ∀ u ∈ S, ∀ v, d v ≤ d u + w u v
  sound : ∀ v, d v < cap → P v (d v) (a v)

/-- What settling `o` does to another node that is not settled: its distance is `e` from now on, and
`b` is noted of it. -/
inductive Relaxed (w : V → V → R) (cap : R) (P : V → R → α → Prop) (o v : V) (d : V → R) (a : V → α)
    (e : R) (b : α) : Prop
  | kept (hd : e = d v) (ha : b = a v) (hle : d v ≤ d o + w o v)
  | lowered (hd : e = d o + w o v) (hle : d o + w o v ≤ d v) (hP : e < cap → P v e b)

/-- The nearest node is settled, and the others are reached through it where that is nearer. -/
theorem Search.settle (h : Search w cap k P S d a) (hw : ∀ u v, 0 ≤ w u v) {o : V}
    (ho : o ∉ S) (hlt : d o < cap) (hmin : ∀ v ∉ S, d o ≤ d v)
    (hkeep : ∀ v, v ∈ S ∨ v = o → d' v = d v ∧ a' v = a v)
    (hrelax : ∀ v, v ∉ S → v ≠ o → Relaxed w cap P o v d a (d' v) (a' v)) :
    Search w cap k P (insert o S) d' a' := by
  have hnot : ∀ {v}, ¬(v ∈ S ∨ v = o) → v ∉ S ∧ v ≠ o := fun hv => not_or.1 hv
  have hle : ∀ v, d' v ≤ d v := by
    intro v
    by_cases hv : v ∈ S ∨ v = o
    · exact (hkeep v hv).1.le
    · rcases hrelax v (hnot hv).1 (hnot hv).2 with ⟨heq, -, -⟩ | ⟨heq, hle, -⟩
      · exact heq.le
      · exact heq.le.trans hle
  have hge : ∀ v ∉ S, v ≠ o → d o ≤ d' v := by
    intro v hv hvo
    rcases hrelax v hv hvo with ⟨heq, -, -⟩ | ⟨heq, -, -⟩
    · exact heq ▸ hmin v hv
    · exact heq ▸ le_add_of_nonneg_right (hw o v)
  have hsettled : ∀ u ∈ insert o S, d' u = d u := fun u hu =>
    (hkeep u (Set.mem_insert_iff.1 hu).symm).1
  have hnonneg : ∀ v, 0 ≤ d' v := by
    intro v
    by_cases hv : v ∈ S ∨ v = o
    · exact (hkeep v hv).1 ▸ h.nonneg v
    · exact (h.nonneg o).trans (hge v (hnot hv).1 (hnot hv).2)
  refine ⟨le_antisymm (h.zero ▸ hle k) (hnonneg k), hnonneg, fun u hu => ?_, fun u hu v hv => ?_,
    fun u hu v => ?_, fun v hv => ?_⟩
  · rw [hsettled u hu]
    rcases hu with rfl | hu
    · exact hlt
    · exact h.below u hu
  · rw [Set.mem_insert_iff, not_or] at hv
    rw [hsettled u hu]
    rcases hu with rfl | hu
    · exact hge v hv.2 hv.1
    · exact (h.sorted u hu o ho).trans (hge v hv.2 hv.1)
  · rw [hsettled u hu]
    rcases hu with rfl | hu
    · by_cases hv : v ∈ S ∨ v = u
      · rw [(hkeep v hv).1]
        rcases hv with hv | rfl
        · exact (h.sorted v hv u ho).trans (le_add_of_nonneg_right (hw u v))
        · exact le_add_of_nonneg_right (hw v v)
      · rcases hrelax v (hnot hv).1 (hnot hv).2 with ⟨heq, -, hle⟩ | ⟨heq, -, -⟩
        · exact heq ▸ hle
        · exact heq.le
    · exact (hle v).trans (h.relaxed u hu v)
  · by_cases hv' : v ∈ S ∨ v = o
    · rw [(hkeep v hv').1, (hkeep v hv').2]
      exact h.sound v ((hkeep v hv').1 ▸ hv)
    · rcases hrelax v (hnot hv').1 (hnot hv').2 with ⟨heq, ha, -⟩ | ⟨-, -, hP⟩
      · rw [heq, ha]
        exact h.sound v (heq ▸ hv)
      · exact hP hv

theorem Search.le_of_walk (h : Search w cap k P S d a) {link : V → V → R → Prop}
    (hlink : ∀ u v x, link u v x → x < cap → w u v ≤ x) (hpos : ∀ u v x, link u v x → 0 ≤ x)
    (hdone : ∀ v ∉ S, cap ≤ d v) {v : V} {c : R} (hwalk : Walk link k v c) (hc : c < cap) :
    v ∈ S ∧ d v ≤ c := by
  have hmem : ∀ u, d u < cap → u ∈ S := fun u hu => by
    by_contra hS
    exact absurd hu (hdone u hS).not_gt
  induction hwalk with
  | nil => exact ⟨hmem k (h.zero ▸ hc), h.zero.le⟩
  | @snoc u v c x hwalk hl ih =>
    have hx := hpos u v x hl
    obtain ⟨hu, hle⟩ := ih ((le_add_of_nonneg_right hx).trans_lt hc)
    have hxc : x < cap := (le_add_of_nonneg_left ((h.nonneg u).trans hle)).trans_lt hc
    have hdv := (h.relaxed u hu v).trans (add_le_add hle (hlink u v x hl hxc))
    exact ⟨hmem v (hdv.trans_lt hc), hdv⟩

end Search

open List

variable {V : Type*} {adj : V → V → Prop} {root : V} {seen : V → Prop} {queue : List V} {dist : V → ℕ}
  {parent : V → V → Prop} {u v : V}
variable {l : List V}

/-- Links of length 1. -/
def Hop (adj : V → V → Prop) (u v : V) (x : ℕ) : Prop := adj u v ∧ x = 1

/-- The nodes in the queue are `seen` and their neighbours may not be; `dist` is the number of hops
from the root over the parents. -/
structure Frontier (adj : V → V → Prop) (root : V) (seen : V → Prop) (queue : List V) (dist : V → ℕ)
    (parent : V → V → Prop) : Prop where
  root_seen : seen root
  root_dist : dist root = 0
  queued : ∀ v ∈ queue, seen v
  sorted : queue.Pairwise fun u v => dist u ≤ dist v
  near : ∀ u ∈ queue, ∀ v, seen v → dist v ≤ dist u + 1
  done : ∀ u, seen u → u ∉ queue → ∀ v, adj u v → seen v ∧ dist v ≤ dist u + 1
  tree : ∀ v, seen v → v ≠ root → ∃ u, parent v u ∧ seen u ∧ adj u v ∧ dist v = dist u + 1

theorem Frontier.start (adj : V → V → Prop) (root : V) (dist : V → ℕ) (h : dist root = 0)
    (parent : V → V → Prop) :
    Frontier adj root (· = root) [root] dist parent where
  root_seen := rfl
  root_dist := h
  queued := fun _ hv => mem_singleton.1 hv
  sorted := pairwise_singleton _ _
  near := fun u hu v hv => by
    rw [hv, h]
    exact Nat.zero_le _
  done := fun u hu hq => absurd (mem_singleton.2 hu) hq
  tree := fun v hv hne => absurd hv hne

theorem Frontier.visit (h : Frontier adj root seen (u :: queue) dist parent)
    (seen' : V → Prop) (dist' : V → ℕ) (parent' : V → V → Prop) (hv : ¬seen v) (huv : adj u v)
    (hseen : ∀ w, seen' w ↔ seen w ∨ w = v) (hdist : ∀ w, w ≠ v → dist' w = dist w)
    (hdv : dist' v = dist u + 1) (hparent : ∀ w, w ≠ v → ∀ p, parent w p → parent' w p)
    (hpv : parent' v u) : Frontier adj root seen' (u :: queue ++ [v]) dist' parent' := by
  have hne : ∀ {w}, seen w → w ≠ v := fun hw heq => hv (heq ▸ hw)
  have hd : ∀ {w}, seen w → dist' w = dist w := fun hw => hdist _ (hne hw)
  have hu : seen u := h.queued u mem_cons_self
  have hhead : ∀ w ∈ u :: queue, dist u ≤ dist w := by
    intro w hw
    rcases mem_cons.1 hw with rfl | hw
    · exact le_rfl
    · exact (pairwise_cons.1 h.sorted).1 w hw
  have hle : ∀ w, seen' w → dist' w ≤ dist u + 1 := by
    intro w hw
    rcases (hseen w).1 hw with hw | rfl
    · rw [hd hw]
      exact h.near u mem_cons_self w hw
    · exact hdv.le
  refine ⟨(hseen _).2 (.inl h.root_seen), (hd h.root_seen).trans h.root_dist, fun w hw => ?_, ?_,
    fun w hw x hx => ?_, fun w hw hq x hx => ?_, fun w hw hroot => ?_⟩
  · rcases mem_append.1 hw with hw | hw
    · exact (hseen w).2 (.inl (h.queued w hw))
    · exact (hseen w).2 (.inr (mem_singleton.1 hw))
  · rw [pairwise_append]
    refine ⟨h.sorted.imp_of_mem fun hx hy hxy => ?_, pairwise_singleton _ _,
      fun x hx y hy => ?_⟩
    · rwa [hd (h.queued _ hx), hd (h.queued _ hy)]
    · rw [mem_singleton.1 hy, hdv]
      exact hle x ((hseen x).2 (.inl (h.queued x hx)))
  · rcases mem_append.1 hw with hw | hw
    · rw [hd (h.queued w hw)]
      exact (hle x hx).trans (Nat.succ_le_succ (hhead w hw))
    · rw [mem_singleton.1 hw, hdv]
      exact (hle x hx).trans (Nat.le_succ _)
  · rw [mem_append, not_or] at hq
    have hw : seen w := ((hseen w).1 hw).resolve_right fun heq => hq.2 (mem_singleton.2 heq)
    obtain ⟨hx, hxd⟩ := h.done w hw hq.1 x hx
    exact ⟨(hseen x).2 (.inl hx), by rwa [hd hx, hd hw]⟩
  · by_cases hwv : w = v
    · subst hwv
      exact ⟨u, hpv, (hseen u).2 (.inl hu), huv, by rw [hdv, hd hu]⟩
    · obtain ⟨p, hp, hps, hpw, hpd⟩ :=
        h.tree w (((hseen w).1 hw).resolve_right hwv) hroot
      exact ⟨p, hparent w hwv p hp, (hseen p).2 (.inl hps), hpw, by rw [hdist w hwv, hd hps, hpd]⟩

theorem Frontier.leave (h : Frontier adj root seen (u :: queue) dist parent)
    (hall : ∀ v, adj u v → seen v) : Frontier adj root seen queue dist parent := by
  refine ⟨h.root_seen, h.root_dist, fun v hv => h.queued v (mem_cons_of_mem u hv),
    (pairwise_cons.1 h.sorted).2, fun w hw => h.near w (mem_cons_of_mem u hw),
    fun w hw hq v hv => ?_, h.tree⟩
  by_cases hwu : w = u
  · subst hwu
    exact ⟨hall v hv, h.near w mem_cons_self v (hall v hv)⟩
  · exact h.done w hw (fun hmem => (mem_cons.1 hmem).elim hwu hq) v hv

theorem Frontier.le_of_walk (h : Frontier adj root seen [] dist parent) {c : ℕ}
    (hw : Walk (Hop adj) root v c) : seen v ∧ dist v ≤ c := by
  induction hw with
  | nil => exact ⟨h.root_seen, h.root_dist.le⟩
  | snoc hwalk hlink ih =>
    obtain ⟨hadj, rfl⟩ := hlink
    obtain ⟨hv, hd⟩ := h.done _ ih.1 not_mem_nil _ hadj
    exact ⟨hv, hd.trans (Nat.succ_le_succ ih.2)⟩

/-- The nodes of `l` lead from `u` to `v`. -/
structure IsPath (adj : V → V → Prop) (u v : V) (l : List V) : Prop where
  head : l.head? = some u
  last : l.getLast? = some v
  chain : l.IsChain adj

theorem IsPath.congr {adj' : V → V → Prop} (h : IsPath adj u v l) (hadj : ∀ a b, adj a b → adj' a b) :
    IsPath adj' u v l :=
  ⟨h.head, h.last, h.chain.imp hadj⟩

theorem IsPath.walk (h : IsPath adj u v l) : Walk (Hop adj) u v (l.length - 1) := by
  obtain ⟨hhead, hlast, hchain⟩ := h
  induction l generalizing u with
  | nil => cases hhead
  | cons a l ih =>
    obtain rfl := Option.some_inj.1 hhead
    rcases l with - | ⟨b, l⟩
    · obtain rfl := Option.some_inj.1 hlast
      exact Walk.nil
    · obtain ⟨hab, hchain⟩ := isChain_cons_cons.1 hchain
      have hrest := ih rfl (by rwa [getLast?_cons_cons] at hlast) hchain
      have hwalk := (Walk.single ⟨hab, rfl⟩).trans hrest
      rwa [Nat.add_comm] at hwalk

/-- The nodes from the root to another one, over the parents. -/
inductive Ancestry (root : V) (parent : V → V → Prop) (adj : V → V → Prop) : V → List V → Prop
  | root : Ancestry root parent adj root [root]
  | snoc {u v : V} {l : List V} (hne : v ≠ root) (hparent : parent v u) (hadj : adj u v)
    (h : Ancestry root parent adj u l) : Ancestry root parent adj v (l ++ [v])

theorem Ancestry.path (h : Ancestry root parent adj v l) :
    l.head? = some root ∧ l.getLast? = some v ∧ l.IsChain adj := by
  induction h with
  | root => exact ⟨rfl, rfl, isChain_singleton _⟩
  | snoc hne hparent hadj hl ih =>
    obtain ⟨hhead, hlast, hchain⟩ := ih
    refine ⟨by rw [head?_append, hhead]; rfl, getLast?_concat, ?_⟩
    refine hchain.append (isChain_singleton _) fun x hx y hy => ?_
    rw [hlast, Option.mem_some_iff] at hx
    rw [head?_singleton, Option.mem_some_iff] at hy
    subst hx hy
    exact hadj

theorem Frontier.exists_ancestry (h : Frontier adj root seen queue dist parent) (hv : seen v) :
    ∃ l, Ancestry root parent adj v l ∧ l.length = dist v + 1 ∧
      (∀ w ∈ l.dropLast, dist w < dist v) ∧ l.Nodup ∧ ∀ w ∈ l, seen w := by
  generalize hd : dist v = d
  induction d generalizing v with
  | zero =>
    by_cases hroot : v = root
    · subst hroot
      exact ⟨_, .root, rfl, fun w hw => absurd hw not_mem_nil, nodup_singleton v,
        fun w hw => mem_singleton.1 hw ▸ hv⟩
    · obtain ⟨u, -, -, -, hdu⟩ := h.tree v hv hroot
      omega
  | succ d ih =>
    have hroot : v ≠ root := by
      rintro rfl
      rw [h.root_dist] at hd
      omega
    obtain ⟨u, hp, hu, hadj, hdu⟩ := h.tree v hv hroot
    obtain ⟨l, hl, hlen, hlt, hnodup, hseen⟩ := ih hu (by omega)
    have hlt' : ∀ w ∈ l, dist w < d + 1 := by
      intro w hw
      rw [← dropLast_append_getLast? _ hl.path.2.1] at hw
      rcases mem_append.1 hw with hw | hw
      · exact (hlt w hw).trans (Nat.lt_succ_self d)
      · rw [mem_singleton.1 hw]
        omega
    refine ⟨l ++ [v], .snoc hroot hp hadj hl, ?_, ?_, ?_, fun w hw => ?_⟩
    · rw [length_append, hlen]
      rfl
    · rwa [dropLast_concat]
    · refine nodup_append.2 ⟨hnodup, nodup_singleton v, fun w hw x hx => ?_⟩
      rintro rfl
      have := hlt' w hw
      rw [mem_singleton.1 hx] at this
      omega
    · rcases mem_append.1 hw with hw | hw
      · exact hseen w hw
      · exact mem_singleton.1 hw ▸ hv

end Ns2
