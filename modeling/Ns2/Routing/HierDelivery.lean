import Mathlib.Data.Nat.SuccPred
import Mathlib.Order.Interval.Finset.Nat
import Mathlib.Order.SuccPred.Relation
import Ns2.Routing.HierRoutes

/-! Hierarchical delivery: a packet reaches its destination, unless it comes back to a cluster that it
has left. -/

namespace Ns2

open HierLogic (toward_eq_node)

def HierAddr.clusterOf (a : HierAddr) : ℕ × ℕ := (a.domain, a.cluster)

namespace Network

variable {N : Network} {s : HierLogic} {g : HierShape} {x y : ℕ} {a b u v src dst : HierAddr}
  {p q r : Point} {c : ℤ}
variable {z z' y' m : ℕ}
variable {R : ℕ → ℕ → Prop} {i j x' : ℕ}

/-- The graph of a cluster has a walk between two points. -/
def Reaches (N : Network) (x y : ℕ) (p q : Point) : Prop := ∃ c, Walk (Own N.links x y) p q c

theorem Reaches.trans (h : N.Reaches x y p q) (h' : N.Reaches x y q r) : N.Reaches x y p r := by
  obtain ⟨c, hw⟩ := h
  obtain ⟨c', hw'⟩ := h'
  exact ⟨_, hw.trans hw'⟩

theorem reaches_of_link (hab : (a, b) ∈ N.links) (hp : Stands x y a b p) :
    N.Reaches x y p (toward a b) :=
  ⟨1, Walk.single ⟨rfl, a, b, hab, hp, rfl⟩⟩

theorem reaches_of_chain {f : ℕ → Point} (hR : ∀ i j, R i j → N.Reaches x y (f i) (f j))
    (h : Relation.ReflTransGen R i j) : N.Reaches x y (f i) (f j) := by
  induction h with
  | refl => exact ⟨0, Walk.nil⟩
  | tail _ hij ih => exact ih.trans (hR _ _ hij)

theorem toward_node : toward ⟨x, y, z⟩ ⟨x, y, z'⟩ = .node z' :=
  toward_eq_node.2 ⟨rfl, rfl, rfl⟩

theorem Connected.reaches_node (hN : N.Connected) (hz : N.Mem ⟨x, y, z⟩) (hz' : N.Mem ⟨x, y, z'⟩) :
    N.Reaches x y (.node z) (.node z') := by
  refine reaches_of_chain (f := .node) (fun i j hij => ?_) (hN.nodes x y z z' hz hz')
  have := reaches_of_link (x := x) (y := y) hij (.node rfl rfl)
  rwa [toward_node] at this

theorem toward_cluster (hy : y ≠ y') : toward ⟨x, y, z⟩ ⟨x, y', z'⟩ = .cluster y' := by
  simp [toward, hy]

theorem toward_domain (hx : x ≠ x') : toward ⟨x, y, z⟩ ⟨x', y', z'⟩ = .domain x' := by
  simp [toward, hx]

theorem Connected.reaches_cluster (hN : N.Connected) (hz : N.Mem ⟨x, y, z⟩)
    (hy' : N.HasCluster x y') (hne : y ≠ y') : N.Reaches x y (.node z) (.cluster y') := by
  have hlink : ∀ i j, (i ≠ j ∧ ∃ z z', (⟨x, i, z⟩, ⟨x, j, z'⟩) ∈ N.links) →
      N.Reaches x y (.cluster i) (.cluster j) := by
    rintro i j ⟨hij, z, z', hmem⟩
    have := reaches_of_link (x := x) (y := y) hmem (.cluster rfl fun _ => hij)
    rwa [toward_cluster hij] at this
  rcases (hN.clusters x y y' hz.1 hy').cases_head with heq | ⟨y₁, ⟨hy₁, z₁, z₂, hmem⟩, hrest⟩
  · exact absurd heq hne
  · have hfirst := reaches_of_link (x := x) (y := y) hmem (.node rfl rfl)
    rw [toward_cluster hy₁] at hfirst
    exact ((hN.reaches_node hz (hN.between _ _ hmem).1).trans hfirst).trans
      (reaches_of_chain (f := .cluster) hlink hrest)

theorem Connected.reaches_domain (hN : N.Connected) (hz : N.Mem ⟨x, y, z⟩)
    (hx' : 0 < x' ∧ x' ≤ N.domains) (hne : x ≠ x') : N.Reaches x y (.node z) (.domain x') := by
  have hlink : ∀ i j, (i ≠ j ∧ ∃ y z y' z', (⟨i, y, z⟩, ⟨j, y', z'⟩) ∈ N.links) →
      N.Reaches x y (.domain i) (.domain j) := by
    rintro i j ⟨hij, y₁, z, y', z', hmem⟩
    have := reaches_of_link (x := x) (y := y) hmem (.domain hij)
    rwa [toward_domain hij] at this
  rcases (hN.domains x x' hz.1.1.1 hz.1.1.2 hx'.1 hx'.2).cases_head with
    heq | ⟨x₁, ⟨hx₁, y₁, z₁, y₂, z₂, hmem⟩, hrest⟩
  · exact absurd heq hne
  · refine Reaches.trans ?_ (reaches_of_chain (f := .domain) hlink hrest)
    have hm := (hN.between _ _ hmem).1
    by_cases hy : y = y₁
    · subst hy
      have hfirst := reaches_of_link (x := x) (y := y) hmem (.node rfl rfl)
      rw [toward_domain hx₁] at hfirst
      exact (hN.reaches_node hz hm).trans hfirst
    · have hfirst := reaches_of_link (x := x) (y := y) hmem (.cluster rfl fun h => absurd h hx₁)
      rw [toward_domain hx₁] at hfirst
      exact (hN.reaches_cluster hz hm.1 hy).trans hfirst

theorem Connected.reaches (hN : N.Connected) (hu : N.Mem u) (hdst : N.Mem dst) :
    N.Reaches u.domain u.cluster (.node u.node) (toward u dst) := by
  unfold toward
  split_ifs with h₁ h₂
  · exact hN.reaches_domain hu hdst.1.1 h₁
  · rw [not_not] at h₁
    exact hN.reaches_cluster hu (h₁ ▸ hdst.1) h₂
  · rw [not_not] at h₁ h₂
    have hdst' : N.Mem ⟨u.domain, u.cluster, dst.node⟩ := by
      rw [h₁, h₂]
      exact hdst
    exact hN.reaches_node hu hdst'

/-- No two points of the graph of a cluster are `INFINITY` or more apart. -/
def Near (N : Network) : Prop :=
  ∀ x y p q, N.HasCluster x y → N.Reaches x y p q → ∃ c < infinity ℤ, Walk (Own N.links x y) p q c

/-- A hop from `a` to `b` is the first one of a shortest walk to `dst` in the graph of the cluster of
`a`. -/
def Heads (N : Network) (dst a b : HierAddr) : Prop :=
  (a, b) ∈ N.links ∧ ∃ d, Shortest (Own N.links a.domain a.cluster) (toward a dst) (toward a b) d ∧
    Shortest (Own N.links a.domain a.cluster) (toward a dst) (.node a.node) (1 + d)

/-- A hop leaves a cluster in which `dst` is not. -/
def Leaves (N : Network) (dst a b : HierAddr) : Prop :=
  N.Heads dst a b ∧ a.clusterOf ≠ dst.clusterOf ∧ b.clusterOf ≠ a.clusterOf

/-- The clusters agree about the direction of `dst`: they can be ranked such that the shortest walks
to it in their graphs leave every cluster for one of a lower rank. -/
def Agrees (N : Network) (dst : HierAddr) : Prop :=
  ∃ rank : ℕ × ℕ → ℕ, ∀ a b, N.Mem a → N.Leaves dst a b → rank b.clusterOf < rank a.clusterOf

/-- Every lookup leads to the first node of a shortest walk. -/
def Follows (N : Network) (s : HierLogic) : Prop :=
  ∀ u dst, N.Mem u → N.Mem dst → u ≠ dst → ∃ b, s.lookupHier u dst = .next b ∧ N.Heads dst u b

/-- Some hops from `src` later a packet for `dst` is in a cluster again that it has left. -/
def Returns (s : HierLogic) (dst src : HierAddr) : Prop :=
  ∃ i j k a b c, i < j ∧ j < k ∧ s.forward dst i src = some a ∧ s.forward dst j src = some b ∧
    s.forward dst k src = some c ∧ b.clusterOf ≠ a.clusterOf ∧ c.clusterOf = a.clusterOf

/-- A node that is not in the cluster shows that there are links that concern the cluster. -/
theorem Connected.touched_of_ne (hN : N.Connected) (hu : N.Mem u) (hc : N.HasCluster x y)
    (hne : u.clusterOf ≠ (x, y)) : ∃ a b, (a, b) ∈ N.links ∧ Touched x y a b := by
  by_cases hx : x = u.domain
  · subst hx
    have hy : y ≠ u.cluster := fun h => hne (h ▸ rfl)
    rcases (hN.clusters _ _ _ hc hu.1).cases_head with heq | ⟨y₁, ⟨hy₁, z, z', hmem⟩, -⟩
    · exact absurd heq hy
    · exact ⟨_, _, hmem, fun _ => ⟨rfl, fun h => absurd h hy₁⟩⟩
  · rcases (hN.domains x u.domain hc.1.1 hc.1.2 hu.1.1.1 hu.1.1.2).cases_head with
      heq | ⟨x₁, ⟨hx₁, y₁, z, y', z', hmem⟩, -⟩
    · exact absurd heq hx
    · exact ⟨_, _, hmem, fun h => absurd h hx₁⟩

theorem Connected.touched (hN : N.Connected) (hsrc : N.Mem src) (hdst : N.Mem dst) (hne : src ≠ dst)
    (hc : N.HasCluster x y) : ∃ a b, (a, b) ∈ N.links ∧ Touched x y a b := by
  by_cases hs : src.clusterOf = (x, y)
  · by_cases hd : dst.clusterOf = (x, y)
    · obtain ⟨rfl, rfl⟩ := Prod.mk.inj hs
      obtain ⟨hx, hy⟩ := Prod.mk.inj hd
      have hdst' : N.Mem ⟨src.domain, src.cluster, dst.node⟩ := by
        rw [← hx, ← hy]
        exact hdst
      rcases (hN.nodes _ _ _ _ hsrc hdst').cases_head with heq | ⟨z, hmem, -⟩
      · exact absurd (HierAddr.ext hx.symm hy.symm heq) hne
      · exact ⟨_, _, hmem, fun _ => ⟨rfl, fun _ => rfl⟩⟩
    · exact hN.touched_of_ne hdst hc hd
  · exact hN.touched_of_ne hsrc hc hs

theorem Connected.follows (hN : N.Connected) (hnear : N.Near) (hsrc : N.Mem src) (hdst : N.Mem dst)
    (hne : src ≠ dst) (hopcnt : ℕ → ℤ) :
    ∃ s, N.entered.hierCompute hopcnt = some s ∧ N.Follows s := by
  have hE := hN.entered
  have halloc : HierLogic.Allocated N.start.toHierShape N.entered := by
    refine ⟨hE.shape, fun x y hc => ?_⟩
    obtain ⟨a, b, hab, ht⟩ := hN.touched hsrc hdst hne (hasCluster_iff.1 hc)
    exact hE.allocated x y a b hc hab ht
  obtain ⟨s, hs, hsa, -⟩ := HierLogic.hierCompute_spec start_fits
    (hasCluster_iff.2 hsrc.1) halloc
  refine ⟨s, hs, fun u dst hu hdst hne => ?_⟩
  have hc := hasCluster_iff.2 hu.1
  obtain ⟨s', hs', -, htables⟩ := HierLogic.hierCompute_spec start_fits hc halloc
  obtain rfl := Option.some.inj (hs.symm.trans hs')
  obtain ⟨t, ht⟩ := Option.isSome_iff_exists.1 (halloc.2 _ _ hc)
  have hholds := hE.holds _ _ hc
  rw [ht] at hholds htables
  obtain ⟨c, hlt, hw⟩ := hnear _ _ _ _ hu.1 (hN.reaches hu hdst)
  obtain ⟨b, d, hb, hmem, hrest, hfirst⟩ := HierLogic.lookupHier_spec start_fits hsa.1
    hN.start_between htables hholds (mem_iff.2 hu) (mem_iff.2 hdst) hne hw hlt
  exact ⟨b, hb, hmem, d, hrest, hfirst⟩

theorem forward_trans {k : ℕ} (h : s.forward dst m u = some v) :
    s.forward dst (m + k) u = s.forward dst k v := by
  induction m generalizing u with
  | zero =>
    obtain rfl := Option.some.inj h
    rw [Nat.zero_add]
  | succ m ih =>
    rw [Nat.succ_add]
    cases hb : s.lookupHier u dst with
    | next b =>
      simp only [HierLogic.forward, hb] at h ⊢
      exact ih h
    | _ => simp [HierLogic.forward, hb] at h

theorem forward_one (h : s.lookupHier u dst = .next v) : s.forward dst 1 u = some v := by
  unfold HierLogic.forward
  rw [h]
  rfl

theorem isNode_of_own (h : Own N.links x y p (.node z) c) : ∃ z', p = .node z' := by
  obtain ⟨-, a, b, -, hs, hto⟩ := h
  obtain ⟨hx, hy, -⟩ := toward_eq_node.1 hto.symm
  cases hs with
  | node => exact ⟨_, rfl⟩
  | cluster _ h => exact absurd hy (h hx)
  | domain h => exact absurd hx h

theorem isNode_of_walk (h : Walk (Own N.links x y) p (.node z) c) : ∃ z', p = .node z' := by
  generalize hq : Point.node z = q at h
  induction h generalizing z with
  | nil => exact ⟨z, hq.symm⟩
  | snoc hwalk hlink ih =>
    subst hq
    obtain ⟨z', rfl⟩ := isNode_of_own hlink
    exact ih rfl

theorem toward_congr (h : a.clusterOf = b.clusterOf) : toward a dst = toward b dst := by
  obtain ⟨hx, hy⟩ := Prod.mk.inj h
  unfold toward
  rw [hx, hy]

theorem toward_of_eq (h : a.clusterOf = b.clusterOf) : toward a b = .node b.node :=
  toward_eq_node.2 ⟨(Prod.mk.inj h).1, (Prod.mk.inj h).2, rfl⟩

section

variable (hF : N.Follows s) (hN : N.Connected) (hu : N.Mem u) (hdst : N.Mem dst)
include hF hN hu hdst

/-- In its cluster a packet comes nearer with every hop, until it is there or leaves. -/
theorem Follows.leaves
    (hm : Shortest (Own N.links u.domain u.cluster) (toward u dst) (.node u.node) (m : ℤ)) :
    ∃ k v, s.forward dst k u = some v ∧ N.Mem v ∧
      (v = dst ∨ ∃ a, N.Mem a ∧ a.clusterOf = u.clusterOf ∧ N.Leaves dst a v) := by
  induction m using Nat.strong_induction_on generalizing u with
  | _ m ih =>
    by_cases hne : u = dst
    · exact ⟨0, u, rfl, hu, .inl hne⟩
    obtain ⟨b, hb, hhead⟩ := hF u dst hu hdst hne
    have hbm := (hN.between _ _ hhead.1).2
    obtain ⟨-, d, hrest, hfirst⟩ := id hhead
    by_cases hcl : u.clusterOf = b.clusterOf
    · -- a hop in the cluster brings the packet nearer
      obtain ⟨m', rfl⟩ := hrest.1.natCast fun _ _ _ h => h.1
      have hlt : m' < m := by
        have := hfirst.unique hm
        omega
      rw [toward_of_eq hcl, toward_congr hcl] at hrest
      obtain ⟨hx, hy⟩ := Prod.mk.inj hcl
      rw [hx, hy] at hrest
      obtain ⟨k, v, hk, hv, hor⟩ := ih m' hlt hbm hrest
      refine ⟨1 + k, v, (forward_trans (forward_one hb)).trans hk, hv, ?_⟩
      rwa [hcl]
    · refine ⟨1, b, forward_one hb, hbm, .inr ⟨u, hu, rfl, hhead, fun hd => ?_, Ne.symm hcl⟩⟩
      -- a shortest walk to a node of the cluster does not leave it
      have hwalk := hrest.1
      rw [toward_of_eq hd] at hwalk
      obtain ⟨z, hz⟩ := isNode_of_walk hwalk
      obtain ⟨hx, hy, -⟩ := toward_eq_node.1 hz
      exact hcl (Prod.ext hx hy)

theorem Follows.exists_leaves :
    ∃ k v, s.forward dst k u = some v ∧ N.Mem v ∧
      (v = dst ∨ ∃ a, N.Mem a ∧ a.clusterOf = u.clusterOf ∧ N.Leaves dst a v) := by
  by_cases hne : u = dst
  · exact ⟨0, u, rfl, hu, .inl hne⟩
  · obtain ⟨b, -, -, d, -, hfirst⟩ := hF u dst hu hdst hne
    obtain ⟨m, hm⟩ := hfirst.1.natCast fun _ _ _ h => h.1
    rw [hm] at hfirst
    exact hF.leaves hN hu hdst hfirst

theorem Follows.delivers (hagree : N.Agrees dst) : ∃ m, s.forward dst m u = some dst := by
  obtain ⟨rank, hrank⟩ := hagree
  generalize hr : rank u.clusterOf = r
  induction r using Nat.strong_induction_on generalizing u with
  | _ r ih =>
    obtain ⟨k, v, hk, hv, rfl | ⟨a, ha, hcl, hleaves⟩⟩ := hF.exists_leaves hN hu hdst
    · exact ⟨k, hk⟩
    · have hlt := hrank a v ha hleaves
      rw [hcl, hr] at hlt
      obtain ⟨m, hm⟩ := ih _ hlt hv rfl
      exact ⟨k + m, (forward_trans hk).trans hm⟩

end

/-- The clusters of the network. -/
def clusterSet (N : Network) : Finset (ℕ × ℕ) :=
  (Finset.range (N.domains + 1)).biUnion fun x =>
    (Finset.range (N.clusters x + 1)).image fun y => (x, y)

theorem Mem.mem_clusterSet (hu : N.Mem u) : u.clusterOf ∈ N.clusterSet := by
  unfold clusterSet
  rw [Finset.mem_biUnion]
  refine ⟨u.domain, Finset.mem_range.2 (Nat.lt_succ_of_le hu.1.1.2), Finset.mem_image.2 ?_⟩
  exact ⟨u.cluster, Finset.mem_range.2 (Nat.lt_succ_of_le hu.1.2.2), rfl⟩

/-- Only a packet that returns goes on for ever, since every cluster it leaves is a new one. -/
theorem Follows.delivers_or_returns (hF : N.Follows s) (hN : N.Connected) (hdst : N.Mem dst)
    (hm : s.forward dst m src = some u) (hu : N.Mem u) {S : Finset (ℕ × ℕ)} (hcl : u.clusterOf ∉ S)
    (hS : ∀ c ∈ S, ∃ i < m, ∃ a, s.forward dst i src = some a ∧ a.clusterOf = c) :
    (∃ m, s.forward dst m src = some dst) ∨ Returns s dst src := by
  generalize hn : (N.clusterSet \ S).card = n
  induction n using Nat.strong_induction_on generalizing m u S with
  | _ n ih =>
    obtain ⟨k, v, hk, hv, rfl | ⟨a, ha, hcla, hleaves⟩⟩ := hF.exists_leaves hN hu hdst
    · exact .inl ⟨m + k, (forward_trans hm).trans hk⟩
    · have hne : v.clusterOf ≠ u.clusterOf := hcla ▸ hleaves.2.2
      have hmk : s.forward dst (m + k) src = some v := (forward_trans hm).trans hk
      have hpos : 0 < k := by
        rcases Nat.eq_zero_or_pos k with rfl | hpos
        · exact absurd (Option.some.inj hk) fun heq => hne (heq ▸ rfl)
        · exact hpos
      by_cases hvS : v.clusterOf ∈ S
      · obtain ⟨i, hi, b, hb, hbv⟩ := hS _ hvS
        exact .inr ⟨i, m, m + k, b, u, v, hi, by omega, hb, hm, hmk, hbv ▸ hne.symm, hbv.symm⟩
      · have hcard : (N.clusterSet \ insert u.clusterOf S).card < n := by
          rw [← hn]
          refine Finset.card_lt_card ⟨Finset.sdiff_subset_sdiff subset_rfl (Finset.subset_insert _ _),
            fun hsub => ?_⟩
          have := hsub (Finset.mem_sdiff.2 ⟨Mem.mem_clusterSet hu, hcl⟩)
          exact (Finset.mem_sdiff.1 this).2 (Finset.mem_insert_self _ _)
        refine ih _ hcard hmk hv (S := insert u.clusterOf S) ?_ (fun c hc => ?_) rfl
        · rw [Finset.mem_insert, not_or]
          exact ⟨hne, hvS⟩
        · rcases Finset.mem_insert.1 hc with rfl | hc
          · exact ⟨m, by omega, u, hm, rfl⟩
          · obtain ⟨i, hi, b, hb, hbc⟩ := hS c hc
            exact ⟨i, by omega, b, hb, hbc⟩

/-- Hierarchical routes deliver a packet, unless the clusters disagree and it returns to one that it
has left. -/
theorem hierCompute_delivers (hN : N.Connected) (hnear : N.Near) (hsrc : N.Mem src)
    (hdst : N.Mem dst) (hne : src ≠ dst) (hopcnt : ℕ → ℤ) :
    ∃ s, N.entered.hierCompute hopcnt = some s ∧
      ((∃ m, s.forward dst m src = some dst) ∨ Returns s dst src) ∧
      (N.Agrees dst → ∃ m, s.forward dst m src = some dst) := by
  obtain ⟨s, hs, hF⟩ := hN.follows hnear hsrc hdst hne hopcnt
  refine ⟨s, hs, ?_, hF.delivers hN hsrc hdst⟩
  exact hF.delivers_or_returns hN hdst (m := 0) rfl hsrc (Finset.notMem_empty _)
    fun c hc => absurd hc (Finset.notMem_empty c)

theorem Connected.near_of_size (hN : N.Connected)
    (h : ∀ x y, N.HasCluster x y → ((N.nodes x y + N.clusters x + N.domains : ℕ) : ℤ) < infinity ℤ) :
    N.Near := by
  intro x y p q hc ⟨c, hw⟩
  let S : Finset Point := (Finset.Icc 1 (N.nodes x y)).image .node ∪
    (Finset.Icc 1 (N.clusters x)).image .cluster ∪ (Finset.Icc 1 N.domains).image .domain
  have hS : ∀ p q c, Own N.links x y p q c → q ∈ S := fun p q c hown => by
    have hq := (hN.start_between.valid hown).2
    unfold HierShape.Valid at hq
    rw [start_size hc] at hq
    cases q with
    | node z =>
      refine Finset.mem_union_left _ (Finset.mem_union_left _ (Finset.mem_image_of_mem _ ?_))
      exact Finset.mem_Icc.2 hq
    | cluster z =>
      refine Finset.mem_union_left _ (Finset.mem_union_right _ (Finset.mem_image_of_mem _ ?_))
      exact Finset.mem_Icc.2 ⟨hq.1, Nat.le_of_lt_succ hq.2⟩
    | domain z =>
      refine Finset.mem_union_right _ (Finset.mem_image_of_mem _ ?_)
      exact Finset.mem_Icc.2 ⟨hq.1, Nat.le_of_lt_succ hq.2⟩
  have hcard : S.card ≤ N.nodes x y + N.clusters x + N.domains := by
    have hI : ∀ (n : ℕ) (f : ℕ → Point), ((Finset.Icc 1 n).image f).card ≤ n := fun n f => by
      simpa using Finset.card_image_le (s := Finset.Icc 1 n) (f := f)
    exact (Finset.card_union_le _ _).trans (add_le_add ((Finset.card_union_le _ _).trans
      (add_le_add (hI _ _) (hI _ _))) (hI _ _))
  obtain ⟨c', hw', hle⟩ := hw.exists_le_card (fun _ _ _ h => h.1) hS
  refine ⟨c', (hle.trans ?_).trans_lt (h x y hc), hw'⟩
  exact_mod_cast hcard

instance : Decidable (N.HasCluster x y) := by
  unfold HasCluster
  infer_instance

instance : Decidable (N.Mem a) := by
  unfold Mem
  infer_instance

/-- Links in both directions. -/
def bothWays (l : List (HierAddr × HierAddr)) : List (HierAddr × HierAddr) := l ++ l.map Prod.swap

theorem symm_bothWays (l : List (HierAddr × HierAddr)) (a b : HierAddr)
    (h : (a, b) ∈ bothWays l) : (b, a) ∈ bothWays l := by
  unfold bothWays at h ⊢
  simp only [List.mem_append, List.mem_map, Prod.swap_eq_iff_eq_swap] at h ⊢
  rcases h with h | ⟨e, he, rfl⟩
  · exact .inr ⟨_, h, rfl⟩
  · exact .inl he

/-- Nodes, clusters and domains with numbers in a row are linked. -/
structure InLine (N : Network) (l : List (HierAddr × HierAddr)) : Prop where
  links : N.links = bothWays l
  between : ∀ e ∈ N.links, N.Mem e.1 ∧ N.Mem e.2
  nodes : ∀ x ∈ Finset.Icc 1 N.domains, ∀ y ∈ Finset.Icc 1 (N.clusters x),
    ∀ z ∈ Finset.Ico 1 (N.nodes x y), (⟨x, y, z⟩, ⟨x, y, z + 1⟩) ∈ N.links
  clusters : ∀ x ∈ Finset.Icc 1 N.domains, ∀ y ∈ Finset.Ico 1 (N.clusters x),
    ∃ e ∈ N.links, e.1.clusterOf = (x, y) ∧ e.2.clusterOf = (x, y + 1)
  domains : ∀ x ∈ Finset.Ico 1 N.domains, ∃ e ∈ N.links, e.1.domain = x ∧ e.2.domain = x + 1

theorem reflTransGen_line {n : ℕ} (hR : ∀ i ∈ Finset.Ico 1 n, R i (i + 1))
    (hsymm : ∀ i j, R i j → R j i) (hi : 0 < i ∧ i ≤ n) (hj : 0 < j ∧ j ≤ n) :
    Relation.ReflTransGen R i j := by
  refine reflTransGen_of_succ R (fun k hk => hR k ?_) fun k hk => hsymm _ _ (hR k ?_)
  · exact Finset.mem_Ico.2 ⟨hi.1.trans_le hk.1, hk.2.trans_le hj.2⟩
  · exact Finset.mem_Ico.2 ⟨hj.1.trans_le hk.1, hk.2.trans_le hi.2⟩

theorem InLine.connected {l : List (HierAddr × HierAddr)} (h : N.InLine l) : N.Connected := by
  have hsymm : ∀ a b, (a, b) ∈ N.links → (b, a) ∈ N.links := by
    rw [h.links]
    exact symm_bothWays l
  refine ⟨fun a b hab => h.between (a, b) hab, hsymm, fun x y z z' hz hz' => ?_,
    fun x y y' hy hy' => ?_, fun x x' hx hxn hx' hxn' => ?_⟩
  · refine reflTransGen_line (fun i hi => ?_) (fun i j => hsymm _ _) hz.2 hz'.2
    exact h.nodes x (Finset.mem_Icc.2 hz.1.1) y (Finset.mem_Icc.2 hz.1.2) i hi
  · refine reflTransGen_line (fun i hi => ?_) (fun i j => ?_) hy.2 hy'.2
    · obtain ⟨⟨a, b⟩, he, h₁, h₂⟩ := h.clusters x (Finset.mem_Icc.2 hy.1) i hi
      have ha : a = ⟨x, i, a.node⟩ := HierAddr.ext (Prod.mk.inj h₁).1 (Prod.mk.inj h₁).2 rfl
      have hb : b = ⟨x, i + 1, b.node⟩ := HierAddr.ext (Prod.mk.inj h₂).1 (Prod.mk.inj h₂).2 rfl
      exact ⟨(Nat.succ_ne_self _).symm, a.node, b.node, ha ▸ hb ▸ he⟩
    · rintro ⟨hij, z, z', hmem⟩
      exact ⟨hij.symm, z', z, hsymm _ _ hmem⟩
  · refine reflTransGen_line (fun i hi => ?_) (fun i j => ?_) ⟨hx, hxn⟩ ⟨hx', hxn'⟩
    · obtain ⟨⟨a, b⟩, he, hax, hbx⟩ := h.domains i hi
      have ha : a = ⟨i, a.cluster, a.node⟩ := HierAddr.ext hax rfl rfl
      have hb : b = ⟨i + 1, b.cluster, b.node⟩ := HierAddr.ext hbx rfl rfl
      exact ⟨(Nat.succ_ne_self _).symm, a.cluster, a.node, b.cluster, b.node, ha ▸ hb ▸ he⟩
    · rintro ⟨hij, y, z, y', z', hmem⟩
      exact ⟨hij.symm, y', z', y, z, hsymm _ _ hmem⟩

/-- Two domains of one cluster each, and a node that is not at the border. -/
def border : Network :=
  ⟨2, fun _ => 1, fun x _ => if x = 1 then 2 else 1,
    bothWays [(⟨1, 1, 1⟩, ⟨1, 1, 2⟩), (⟨1, 1, 2⟩, ⟨2, 1, 1⟩)]⟩

theorem hierCompute_delivers_border : ∃ s, border.entered.hierCompute (fun _ => 0) = some s ∧
    ∃ m, s.forward ⟨2, 1, 1⟩ m ⟨1, 1, 1⟩ = some ⟨2, 1, 1⟩ := by
  have hN : border.Connected :=
    InLine.connected ⟨rfl, by decide, by decide, by decide, by decide⟩
  have hnear : border.Near := hN.near_of_size fun x y hc => by
    have : border.nodes x y ≤ 2 := by
      change (if x = 1 then 2 else 1) ≤ 2
      split_ifs <;> decide
    change ((border.nodes x y + 1 + 2 : ℕ) : ℤ) < ((0x3fff : ℕ) : ℤ)
    omega
  have hagree : border.Agrees ⟨2, 1, 1⟩ := by
    refine ⟨fun c => 2 - c.1, fun a b ha hl => ?_⟩
    obtain ⟨⟨hmem, -⟩, hdst, hne⟩ := hl
    have hx : ∀ e ∈ border.links, e.1.clusterOf ≠ HierAddr.clusterOf ⟨2, 1, 1⟩ →
      e.2.clusterOf ≠ e.1.clusterOf → 2 - e.2.clusterOf.1 < 2 - e.1.clusterOf.1 := by decide
    exact hx (a, b) hmem hdst hne
  have hsrc : border.Mem ⟨1, 1, 1⟩ := by decide
  have hdst : border.Mem ⟨2, 1, 1⟩ := by decide
  obtain ⟨s, hs, -, hdel⟩ := hierCompute_delivers hN hnear hsrc hdst (by decide) fun _ => 0
  exact ⟨s, hs, hdel hagree⟩

/-- Five clusters in a ring; the third and the fourth are lines of three nodes, next to each other at
their first ones. -/
def ring : Network :=
  ⟨1, fun _ => 5, fun _ y => if y = 3 ∨ y = 4 then 3 else 1,
    bothWays [(⟨1, 3, 1⟩, ⟨1, 3, 2⟩), (⟨1, 3, 2⟩, ⟨1, 3, 3⟩), (⟨1, 4, 1⟩, ⟨1, 4, 2⟩),
      (⟨1, 4, 2⟩, ⟨1, 4, 3⟩), (⟨1, 1, 1⟩, ⟨1, 2, 1⟩), (⟨1, 2, 1⟩, ⟨1, 3, 3⟩),
      (⟨1, 3, 1⟩, ⟨1, 4, 1⟩), (⟨1, 4, 3⟩, ⟨1, 5, 1⟩), (⟨1, 5, 1⟩, ⟨1, 1, 1⟩)]⟩

/-- A lower bound of the distance from a point to the first cluster, in the graphs of the third and of
the fourth. -/
def ringBound : Point → ℤ
  | .node 1 => 3
  | .node 2 => 3
  | .node 3 => 2
  | .cluster 2 => 1
  | .cluster 3 => 2
  | .cluster 4 => 2
  | .cluster 5 => 1
  | _ => 0

theorem ringBound_le (hy : y = 3 ∨ y = 4) (p q : Point) (c : ℤ) (h : Own ring.links 1 y p q c) :
    ringBound p ≤ c + ringBound q := by
  obtain ⟨rfl, a, b, hab, hs, rfl⟩ := h
  have hall : ∀ e ∈ ring.links, e.1.domain = e.2.domain ∧
      (e.1.cluster = 3 ∨ e.1.cluster = 4 →
        ringBound (.node e.1.node) ≤ 1 + ringBound (toward e.1 e.2)) ∧
      (e.1.cluster ≠ e.2.cluster →
        ringBound (.cluster e.1.cluster) ≤ 1 + ringBound (toward e.1 e.2)) := by decide
  obtain ⟨hx, hnode, hcluster⟩ := hall (a, b) hab
  cases hs with
  | node _ hcl => exact hnode (hcl ▸ hy)
  | cluster _ h => exact hcluster (h hx)
  | domain h => exact absurd hx h

/-- The way from the third cluster over the fourth, the other way round the ring. -/
theorem ring_walk_third : Walk (Own ring.links 1 3) (.node 1) (.cluster 1) 3 := by
  have h₁ : Own ring.links 1 3 (.node 1) (.cluster 4) 1 :=
    ⟨rfl, ⟨1, 3, 1⟩, ⟨1, 4, 1⟩, by decide, .node rfl rfl, rfl⟩
  have h₂ : Own ring.links 1 3 (.cluster 4) (.cluster 5) 1 :=
    ⟨rfl, ⟨1, 4, 3⟩, ⟨1, 5, 1⟩, by decide, .cluster rfl fun _ => by decide, rfl⟩
  have h₃ : Own ring.links 1 3 (.cluster 5) (.cluster 1) 1 :=
    ⟨rfl, ⟨1, 5, 1⟩, ⟨1, 1, 1⟩, by decide, .cluster rfl fun _ => by decide, rfl⟩
  exact ((Walk.single h₁).snoc h₂).snoc h₃

theorem ring_walk_fourth : Walk (Own ring.links 1 4) (.node 1) (.cluster 1) 3 := by
  have h₁ : Own ring.links 1 4 (.node 1) (.cluster 3) 1 :=
    ⟨rfl, ⟨1, 4, 1⟩, ⟨1, 3, 1⟩, by decide, .node rfl rfl, rfl⟩
  have h₂ : Own ring.links 1 4 (.cluster 3) (.cluster 2) 1 :=
    ⟨rfl, ⟨1, 3, 3⟩, ⟨1, 2, 1⟩, by decide, .cluster rfl fun _ => by decide, rfl⟩
  have h₃ : Own ring.links 1 4 (.cluster 2) (.cluster 1) 1 :=
    ⟨rfl, ⟨1, 2, 1⟩, ⟨1, 1, 1⟩, by decide, .cluster rfl fun _ => by decide, rfl⟩
  exact ((Walk.single h₁).snoc h₂).snoc h₃

/-- From the first node of either cluster the second one is a detour. -/
theorem ring_hop (hy : y = 3 ∨ y = 4) {b : HierAddr} (hheads : ring.Heads ⟨1, 1, 1⟩ ⟨1, y, 1⟩ b) :
    b = ⟨1, 7 - y, 1⟩ := by
  obtain ⟨hmem, d, hrest, hfirst⟩ := hheads
  have hfrom : ∀ e ∈ ring.links, e.1.node = 1 → (e.1.cluster = 3 ∨ e.1.cluster = 4) →
      e.2 = ⟨1, e.1.cluster, 2⟩ ∨ e.2 = ⟨1, 7 - e.1.cluster, 1⟩ := by decide
  have hto : toward ⟨1, y, 1⟩ ⟨1, 1, 1⟩ = .cluster 1 := toward_cluster (by omega)
  have hwalk : Walk (Own ring.links 1 y) (.node 1) (.cluster 1) 3 := by
    rcases hy with rfl | rfl
    · exact ring_walk_third
    · exact ring_walk_fourth
  rcases hfrom _ hmem rfl hy with heq | heq
  · obtain rfl : b = ⟨1, y, 2⟩ := heq
    rw [hto] at hrest hfirst
    have hle : (1 : ℤ) + d ≤ 3 := hfirst.2 3 hwalk
    rw [toward_node] at hrest
    have hge : (3 : ℤ) ≤ d + 0 := hrest.1.le_potential (ringBound_le hy)
    omega
  · exact heq

theorem forward_loop (huv : s.lookupHier u dst = .next v) (hvu : s.lookupHier v dst = .next u)
    (m : ℕ) : (s.forward dst m u = some u ∨ s.forward dst m u = some v) ∧
      (s.forward dst m v = some u ∨ s.forward dst m v = some v) := by
  induction m with
  | zero => exact ⟨.inl rfl, .inr rfl⟩
  | succ m ih =>
    have hu : s.forward dst (m + 1) u = s.forward dst m v := by
      rw [Nat.add_comm, forward_trans (forward_one huv)]
    have hv : s.forward dst (m + 1) v = s.forward dst m u := by
      rw [Nat.add_comm, forward_trans (forward_one hvu)]
    rw [hu, hv]
    exact ⟨ih.2, ih.1⟩

/-- Nodes of the third and the fourth cluster send a packet for the first to and fro, whatever the
distances held before. -/
theorem ring_loops (hopcnt : ℕ → ℤ) : ring.Connected ∧ ring.Mem ⟨1, 3, 1⟩ ∧ ring.Mem ⟨1, 1, 1⟩ ∧
    ∃ s, ring.entered.hierCompute hopcnt = some s ∧
      ∀ m, s.forward ⟨1, 1, 1⟩ m ⟨1, 3, 1⟩ ≠ some ⟨1, 1, 1⟩ := by
  have hN : ring.Connected :=
    InLine.connected ⟨rfl, by decide, by decide, by decide, by decide⟩
  have hnear : ring.Near := hN.near_of_size fun x y hc => by
    have : ring.nodes x y ≤ 3 := by
      change (if y = 3 ∨ y = 4 then 3 else 1) ≤ 3
      split_ifs <;> decide
    change ((ring.nodes x y + 5 + 1 : ℕ) : ℤ) < ((0x3fff : ℕ) : ℤ)
    omega
  have hu : ring.Mem ⟨1, 3, 1⟩ := by decide
  have hv : ring.Mem ⟨1, 4, 1⟩ := by decide
  have hdst : ring.Mem ⟨1, 1, 1⟩ := by decide
  refine ⟨hN, hu, hdst, ?_⟩
  obtain ⟨s, hs, hF⟩ := hN.follows hnear hu hdst (by decide) hopcnt
  refine ⟨s, hs, fun m => ?_⟩
  obtain ⟨b, hb, hbheads⟩ := hF _ _ hu hdst (by decide)
  obtain ⟨c, hc, hcheads⟩ := hF _ _ hv hdst (by decide)
  obtain rfl : b = ⟨1, 4, 1⟩ := ring_hop (Or.inl rfl) hbheads
  obtain rfl : c = ⟨1, 3, 1⟩ := ring_hop (Or.inr rfl) hcheads
  rcases (forward_loop hb hc m).1 with h | h <;> rw [h] <;> decide

theorem hierCompute_loops : ring.Connected ∧ ring.Mem ⟨1, 3, 1⟩ ∧ ring.Mem ⟨1, 1, 1⟩ ∧
    ∃ s, ring.entered.hierCompute (fun _ => 0) = some s ∧
      ∀ m, s.forward ⟨1, 1, 1⟩ m ⟨1, 3, 1⟩ ≠ some ⟨1, 1, 1⟩ :=
  ring_loops fun _ => 0

end Network

end Ns2
