import Ns2.Routing.HierGraph
import Ns2.Routing.StaticRoutes

/-! Hierarchical routes: a packet follows, hop by hop, the shortest walk in the graph of the cluster
it is in, and what this means for where it ends up. -/

namespace Ns2

open List

/-- Domains, clusters and nodes are numbered from 1 on. -/
structure Network where
  domains : ℕ
  clusters : ℕ → ℕ
  nodes : ℕ → ℕ → ℕ
  links : List (HierAddr × HierAddr)

namespace Network

def HasCluster (N : Network) (x y : ℕ) : Prop :=
  (0 < x ∧ x ≤ N.domains) ∧ 0 < y ∧ y ≤ N.clusters x

def Mem (N : Network) (a : HierAddr) : Prop :=
  N.HasCluster a.domain a.cluster ∧ 0 < a.node ∧ a.node ≤ N.nodes a.domain a.cluster

/-- Links are bidirectional, and connect the nodes of a cluster, the clusters of a domain and the
domains. -/
structure Connected (N : Network) : Prop where
  between : ∀ a b, (a, b) ∈ N.links → N.Mem a ∧ N.Mem b
  symm : ∀ a b, (a, b) ∈ N.links → (b, a) ∈ N.links
  nodes : ∀ x y z z', N.Mem ⟨x, y, z⟩ → N.Mem ⟨x, y, z'⟩ →
    Relation.ReflTransGen (fun z z' => (⟨x, y, z⟩, ⟨x, y, z'⟩) ∈ N.links) z z'
  clusters : ∀ x y y', N.HasCluster x y → N.HasCluster x y' →
    Relation.ReflTransGen
      (fun y y' => y ≠ y' ∧ ∃ z z', (⟨x, y, z⟩, ⟨x, y', z'⟩) ∈ N.links) y y'
  domains : ∀ x x', 0 < x → x ≤ N.domains → 0 < x' → x' ≤ N.domains →
    Relation.ReflTransGen
      (fun x x' => x ≠ x' ∧ ∃ y z y' z', (⟨x, y, z⟩, ⟨x', y', z'⟩) ∈ N.links) x x'

/-- What is sent before the links. -/
def start (N : Network) : HierLogic :=
  (HierLogic.hierInit (N.domains + 1) fun x => N.clusters x + 1).sendNumOfNodes N.nodes

/-- The links are inserted with a cost of 1. -/
def entered (N : Network) : HierLogic :=
  N.links.foldl (fun s l => s.hierInsert l.1 l.2 1) N.start

end Network

namespace HierLogic

open HierTables
open RouteScan (nodes mem_nodes nodup_nodes)

variable {C f : ℕ → ℕ} {m k : ℕ} {n : ℕ → ℕ → ℕ}

theorem le_foldl_max {l : List ℕ} :
    m ≤ l.foldl (fun m i => if C i > m then C i else m) m ∧
      ∀ i ∈ l, C i ≤ l.foldl (fun m i => if C i > m then C i else m) m := by
  induction l generalizing m with
  | nil => simp
  | cons a l ih =>
    obtain ⟨hm, hl⟩ := ih (m := if C a > m then C a else m)
    rw [foldl_cons, forall_mem_cons]
    refine ⟨le_trans ?_ hm, le_trans ?_ hm, hl⟩ <;> split_ifs <;> omega

theorem foldl_row {i x y : ℕ} {l : List ℕ} (hl : ∀ j ∈ l, j < m) (hy : y < m) :
    l.foldl (fun f j => Function.update f (index i j m) (n i j)) f (index x y m) =
      if x = i ∧ y ∈ l then n x y else f (index x y m) := by
  induction l generalizing f with
  | nil => simp
  | cons j l ih =>
    rw [forall_mem_cons] at hl
    rw [foldl_cons, ih hl.2, Function.update_apply]
    simp only [index_inj hy hl.1, mem_cons]
    grind

theorem foldl_rows {x y : ℕ} {l : List ℕ} (hC : ∀ i ∈ l, C i ≤ m) (hy : y < m) :
    l.foldl (fun f i => (nodes (C i)).foldl (fun f j =>
        Function.update f (index i j m) (n i j)) f) f (index x y m) =
      if x ∈ l ∧ y ∈ nodes (C x) then n x y else f (index x y m) := by
  induction l generalizing f with
  | nil => simp
  | cons i l ih =>
    rw [forall_mem_cons] at hC
    rw [foldl_cons, ih hC.2, foldl_row (fun j hj => (mem_nodes.1 hj).2.trans_le hC.1) hy]
    simp only [mem_cons]
    grind

variable {s s' : HierLogic} {g : HierShape} {x y : ℕ} {u a b dst : HierAddr} {hopcnt : ℕ → ℤ}

/-- A loop that can fail over clusters or domains, of which only `k` changes what `V` sees. -/
theorem foldlM_at {β : Type*} {V : HierLogic → β} {I : HierLogic → Prop}
    {F : HierLogic → ℕ → Option HierLogic} {G : β → β} {l : List ℕ} (hl : l.Nodup) (hs : I s)
    (hstep : ∀ s, ∀ j ∈ l, I s →
      ∃ s', F s j = some s' ∧ I s' ∧ V s' = if j = k then G (V s) else V s) :
    ∃ s', l.foldlM F s = some s' ∧ I s' ∧ V s' = if k ∈ l then G (V s) else V s := by
  induction l generalizing s with
  | nil => exact ⟨s, rfl, hs, rfl⟩
  | cons j l ih =>
    rw [nodup_cons] at hl
    obtain ⟨s₁, hF, hs₁, hV₁⟩ := hstep s j mem_cons_self hs
    obtain ⟨s', hfold, hs', hV⟩ := ih hl.2 hs₁ fun s i hi => hstep s i (mem_cons_of_mem j hi)
    refine ⟨s', ?_, hs', ?_⟩
    · rw [foldlM_cons, hF]
      exact hfold
    · rw [hV, hV₁]
      by_cases hj : j = k
      · subst hj
        rw [if_neg hl.1, if_pos rfl, if_pos mem_cons_self]
      · simp only [mem_cons, hj, Ne.symm hj, false_or, if_false]

/-- The tables of a cluster with its routes. -/
def routed (g : HierShape) (hopcnt : ℕ → ℤ) (x y : ℕ) (t : HierTables) : HierTables :=
  { t with
    hroute := fun c => if c < g.rows x y * g.rows x y then
        RouteScan.routes t.hadj (g.rows x y) hopcnt c
      else t.hroute c }

/-- Every cluster has tables. -/
def Allocated (g : HierShape) (s : HierLogic) : Prop :=
  s.toHierShape = g ∧ ∀ x y, g.HasCluster x y → (s.tables (index x y g.Cmax)).isSome

theorem hierComputeRoutes_spec (hg : g.Fits) (hc : g.HasCluster x y) {j : ℕ}
    (hjk : g.HasCluster j k) (h : Allocated g s) :
    ∃ s', hierComputeRoutes hopcnt j s k = some s' ∧ Allocated g s' ∧
      s'.tables (index x y g.Cmax) =
        if j = x ∧ k = y then (s.tables (index x y g.Cmax)).map (routed g hopcnt x y)
        else s.tables (index x y g.Cmax) := by
  obtain ⟨rfl, halloc⟩ := h
  obtain ⟨t, ht⟩ := Option.isSome_iff_exists.1 (halloc j k hjk)
  unfold hierComputeRoutes
  dsimp only
  rw [ht]
  have htables : ∀ x' y', s.HasCluster x' y' →
      Function.update s.tables (index j k s.Cmax) (some (routed s.toHierShape hopcnt j k t))
        (index x' y' s.Cmax) =
      if j = x' ∧ k = y' then some (routed s.toHierShape hopcnt j k t)
      else s.tables (index x' y' s.Cmax) := by
    intro x' y' hc'
    rw [Function.update_apply]
    simp only [index_inj (hc'.lt hg) (hjk.lt hg), eq_comm]
  refine ⟨_, rfl, ⟨rfl, fun x' y' hc' => ?_⟩, ?_⟩
  · refine (congrArg Option.isSome (htables x' y' hc')).trans ?_
    split_ifs
    · rfl
    · exact halloc x' y' hc'
  · refine (htables x y hc).trans ?_
    split_ifs with hxy
    · obtain ⟨rfl, rfl⟩ := hxy
      rw [ht]
      rfl
    · rfl

theorem hierCompute_spec (hg : g.Fits) (hc : g.HasCluster x y) (h : Allocated g s) :
    ∃ s', hierCompute hopcnt s = some s' ∧ Allocated g s' ∧
      s'.tables (index x y g.Cmax) = (s.tables (index x y g.Cmax)).map (routed g hopcnt x y) := by
  have hinner : ∀ s, ∀ j ∈ nodes g.D, Allocated g s →
      ∃ s', (nodes (s.C j)).foldlM (hierComputeRoutes hopcnt j) s = some s' ∧ Allocated g s' ∧
        s'.tables (index x y g.Cmax) =
          if j = x then (s.tables (index x y g.Cmax)).map (routed g hopcnt x y)
          else s.tables (index x y g.Cmax) := by
    intro s j hj h
    rw [show s.C = g.C from h.1 ▸ rfl]
    have hy : x = j → y ∈ nodes (g.C j) := fun h => h ▸ mem_nodes.2 hc.cluster
    obtain ⟨s', hfold, hs', hV⟩ := foldlM_at (V := fun s => s.tables (index x y g.Cmax))
      (I := Allocated g) (F := hierComputeRoutes hopcnt j) (k := y)
      (G := fun t => if j = x then t.map (routed g hopcnt x y) else t)
      (nodup_nodes (g.C j)) h fun s k hk h => by
        obtain ⟨s', hs', ha, hV⟩ :=
          hierComputeRoutes_spec hg hc ⟨mem_nodes.1 hj, mem_nodes.1 hk⟩ h
        refine ⟨s', hs', ha, hV.trans ?_⟩
        by_cases hj : j = x <;> by_cases hk : k = y <;> simp [hj, hk]
    refine ⟨s', hfold, hs', hV.trans ?_⟩
    by_cases hj : j = x
    · simp [hy hj.symm]
    · simp [hj]
  unfold hierCompute
  rw [show s.D = g.D from h.1 ▸ rfl]
  obtain ⟨s', hfold, hs', hV⟩ := foldlM_at (V := fun s => s.tables (index x y g.Cmax))
    (I := Allocated g) (k := x) (F := fun s j => (nodes (s.C j)).foldlM (hierComputeRoutes hopcnt j) s)
    (G := fun t => t.map (routed g hopcnt x y)) (nodup_nodes g.D) h hinner
  rw [if_pos (mem_nodes.2 hc.domain)] at hV
  exact ⟨s', hfold, hs', hV⟩

end HierLogic

namespace Network

variable {N : Network} {x y : ℕ} {a b : HierAddr}

theorem start_fits : N.start.Fits := fun x hx hD =>
  HierLogic.le_foldl_max.2 x (RouteScan.mem_nodes.2 ⟨hx, hD⟩)

theorem hasCluster_iff : N.start.HasCluster x y ↔ N.HasCluster x y :=
  ⟨fun h => ⟨⟨h.domain.1, Nat.le_of_lt_succ h.domain.2⟩, h.cluster.1, Nat.le_of_lt_succ h.cluster.2⟩,
    fun h => ⟨⟨h.1.1, Nat.lt_succ_of_le h.1.2⟩, h.2.1, Nat.lt_succ_of_le h.2.2⟩⟩

theorem start_size (h : N.HasCluster x y) : N.start.size x y = N.nodes x y := by
  have hc := hasCluster_iff.2 h
  have hx := RouteScan.mem_nodes.2 hc.domain
  have hy := RouteScan.mem_nodes.2 hc.cluster
  refine (HierLogic.foldl_rows (fun i hi => ?_) (hc.lt start_fits)).trans (if_pos ⟨hx, hy⟩)
  obtain ⟨hi, hD⟩ := RouteScan.mem_nodes.1 hi
  exact start_fits i hi hD

theorem mem_iff : N.start.Mem a ↔ N.Mem a := by
  constructor
  · intro h
    have hc := hasCluster_iff.1 h.hasCluster
    exact ⟨hc, h.node.1, (start_size hc) ▸ h.node.2⟩
  · intro h
    have hc := hasCluster_iff.2 h.1
    exact ⟨hc.domain, hc.cluster, h.2.1, h.2.2.trans (start_size h.1).ge⟩

theorem Connected.start_between (h : N.Connected) : N.start.Between N.links := fun a b hab =>
  ⟨mem_iff.2 (h.between a b hab).1, mem_iff.2 (h.between a b hab).2⟩

theorem Connected.entered (h : N.Connected) :
    HierLogic.Entered N.start.toHierShape N.links N.entered := by
  have hnil : HierLogic.Entered N.start.toHierShape [] N.start :=
    ⟨rfl, fun x y _ => HierLogic.holds_nil, fun x y a b _ hmem => absurd hmem not_mem_nil⟩
  exact hnil.foldl start_fits h.start_between

end Network

/-- A walk to `t` that no other one is cheaper than. -/
def Shortest {V : Type*} (link : V → V → ℤ → Prop) (t u : V) (c : ℤ) : Prop :=
  Walk link u t c ∧ ∀ c', Walk link u t c' → c ≤ c'

theorem Shortest.unique {V : Type*} {link : V → V → ℤ → Prop} {t u : V} {c c' : ℤ}
    (h : Shortest link t u c) (h' : Shortest link t u c') : c = c' :=
  le_antisymm (h.2 c' h'.1) (h'.2 c h.1)

namespace HierLogic

open HierTables
open RouteScan (nodes mem_nodes Link Positive)

variable {s : HierLogic} {g : HierShape} {l : List (HierAddr × HierAddr)} {x y : ℕ}
  {u a b dst : HierAddr} {hopcnt : ℕ → ℤ} {t : HierTables} {p q : Point} {c : ℤ}
variable {v : ℕ}

theorem Holds.positive (h : Holds g l x y t) : Positive t.hadj (g.rows x y) := by
  intro u _ v hv
  rcases h.adj u v (mem_nodes.1 hv).2 with ⟨-, heq⟩ | ⟨-, heq⟩
  · rw [heq]
    exact one_pos
  · rw [heq]
    exact RouteScan.infinity_pos

theorem own_cost (h : Own l x y p q c) : c = 1 := h.1

section

variable (h : Holds g l x y t) (hc : g.HasCluster x y) (hl : g.Between l)
include h hc hl

theorem Holds.link_iff {u : ℕ} :
    Link t.hadj (g.rows x y) u v c ↔
      ∃ p q, Own l x y p q c ∧ u = g.number x y p ∧ v = g.number x y q := by
  constructor
  · rintro ⟨-, hv, rfl, hne⟩
    rcases h.adj u v (mem_nodes.1 hv).2 with ⟨hown, heq⟩ | ⟨-, heq⟩
    · rwa [heq]
    · exact absurd heq hne
  · rintro ⟨p, q, hown, rfl, rfl⟩
    obtain rfl := own_cost hown
    obtain ⟨hp, hq⟩ := hl.valid hown
    have hv := HierShape.number_mem hc hq
    refine ⟨HierShape.number_mem hc hp, hv, ?_, ?_⟩
    · rcases h.adj (g.number x y p) _ (mem_nodes.1 hv).2 with ⟨-, heq⟩ | ⟨hno, -⟩
      · exact heq
      · exact absurd ⟨p, q, hown, rfl, rfl⟩ hno
    · unfold infinity
      decide

theorem Holds.walk (hw : Walk (Own l x y) p q c) :
    Walk (Link t.hadj (g.rows x y)) (g.number x y p) (g.number x y q) c := by
  induction hw with
  | nil => exact Walk.nil
  | snoc hwalk hlink ih => exact ih.snoc ((h.link_iff hc hl).2 ⟨_, _, hlink, rfl, rfl⟩)

theorem Holds.walk_of
    (hp : g.Valid x y p) (hw : Walk (Link t.hadj (g.rows x y)) (g.number x y p) v c) :
    ∃ q, g.Valid x y q ∧ v = g.number x y q ∧ Walk (Own l x y) p q c := by
  induction hw with
  | nil => exact ⟨p, hp, rfl, Walk.nil⟩
  | snoc hwalk hlink ih =>
    obtain ⟨q, hq, rfl, hw⟩ := ih
    obtain ⟨q', q'', hown, heq, rfl⟩ := (h.link_iff hc hl).1 hlink
    obtain ⟨hq', hq''⟩ := hl.valid hown
    obtain rfl := HierShape.number_inj hq hq' heq
    exact ⟨q'', hq'', rfl, hw.snoc hown⟩

theorem Holds.shortest_of (hp : g.Valid x y p) (hq : g.Valid x y q)
    (hw : RouteScan.Cheapest t.hadj (g.rows x y) (g.number x y q) (g.number x y p) c) :
    Shortest (Own l x y) q p c := by
  obtain ⟨q', hq', heq, hwalk⟩ := h.walk_of hc hl hp hw.1
  obtain rfl := HierShape.number_inj hq hq' heq
  exact ⟨hwalk, fun c' hw' => hw.2 c' (h.walk hc hl hw')⟩

/-- The route of a point is the first point of a shortest walk in the graph of the cluster. -/
theorem Holds.route_spec
    (hp : g.Valid x y p) (hq : g.Valid x y q) (hne : q ≠ p) (hw : Walk (Own l x y) p q c)
    (hlt : c < infinity ℤ) :
    ∃ r d, RouteScan.routes t.hadj (g.rows x y) hopcnt
        (index (g.number x y p) (g.number x y q) (g.rows x y)) = g.number x y r ∧
      Own l x y p r 1 ∧ Shortest (Own l x y) q r d ∧ Shortest (Own l x y) q p (1 + d) := by
  have hpn := HierShape.number_mem hc hp
  have hrow := RouteScan.routes_spec (fun k hk _ hs => RouteScan.scan_row h.positive hk hs) hopcnt hpn
  have hnum : g.number x y q ≠ g.number x y p := fun heq => hne (HierShape.number_inj hq hp heq)
  obtain ⟨z, d, -, hlink, hrest, hfirst⟩ :=
    hrow.cheapest h.positive (HierShape.number_mem hc hq) hnum (h.walk hc hl hw) hlt
  obtain ⟨p', r, hown, heq, hr⟩ := (h.link_iff hc hl).1 hlink
  obtain rfl := own_cost hown
  obtain ⟨hp', hrv⟩ := hl.valid hown
  obtain rfl := HierShape.number_inj hp hp' heq
  rw [hr] at hrest
  exact ⟨r, d, hr, hown, h.shortest_of hc hl hrv hq hrest, h.shortest_of hc hl hp hq hfirst⟩

end

theorem Holds.getAddress_spec (h : Holds g l u.domain u.cluster t) (hl : g.Between l)
    (hown : Own l u.domain u.cluster (.node u.node) p 1) :
    ∃ b, getAddress t (g.number u.domain u.cluster p) (g.C u.domain) g.D
        (g.size u.domain u.cluster) u = some b ∧ (u, b) ∈ l ∧ toward u b = p := by
  have hp := (hl.valid hown).2
  unfold getAddress
  cases p with
  | node z =>
    have hz : g.number u.domain u.cluster (.node z) = z := rfl
    rw [hz, if_pos hp.2]
    obtain ⟨⟨bd, bc, bn⟩, hab, hto⟩ := own_node hown
    obtain ⟨rfl, rfl, rfl⟩ := toward_eq_node.1 hto.symm
    exact ⟨_, rfl, hab, hto.symm⟩
  | cluster y' =>
    have hy : g.number u.domain u.cluster (.cluster y') = g.size u.domain u.cluster + y' := rfl
    have hlt := hp.2
    obtain ⟨b, hb, hmem, hto⟩ := h.connect _ _ hown fun z => nofun
    rw [HierShape.connection_cluster] at hb
    have hpos := hp.1
    refine ⟨b, ?_, hmem, hto⟩
    rw [hy, if_neg (by omega), if_pos (by omega), Nat.add_sub_cancel_left]
    exact hb
  | domain x' =>
    have hx : g.number u.domain u.cluster (.domain x') =
      g.size u.domain u.cluster + (g.C u.domain - 1) + x' := rfl
    obtain ⟨b, hb, hmem, hto⟩ := h.connect _ _ hown fun z => nofun
    rw [HierShape.connection_domain] at hb
    have hpos := hp.1
    refine ⟨b, ?_, hmem, hto⟩
    rw [hx, if_neg (by omega), if_neg (by omega), Nat.add_assoc, Nat.add_sub_cancel_left,
      Nat.add_sub_cancel_left]
    exact hb

theorem index_lt {i j n : ℕ} (hi : i < n) (hj : j < n) : index i j n < n * n := by
  unfold index
  calc n * i + j < n * i + n := Nat.add_lt_add_left hj _
    _ = n * (i + 1) := (Nat.mul_succ n i).symm
    _ ≤ n * n := Nat.mul_le_mul_left n hi

theorem lookupHier_eq (ht : s.tables (index u.domain u.cluster s.Cmax) = some t) (hu : s.Mem u)
    (hdst : s.Mem dst) : s.lookupHier u dst =
      if 0 < t.hroute (index u.node (s.number u.domain u.cluster (toward u dst))
          (s.rows u.domain u.cluster)) then
        match getAddress t (t.hroute (index u.node (s.number u.domain u.cluster (toward u dst))
            (s.rows u.domain u.cluster))) (s.C u.domain) s.D (s.size u.domain u.cluster) u with
        | none => .crash
        | some a => .next a
      else .unreachable := by
  have hd := hu.domain
  have hsrc : ¬(u.domain = 0 ∨ u.cluster = 0 ∨ u.node = 0) := by
    have := hu.cluster
    have := hu.node
    omega
  have hdst₀ := hdst.domain.1.ne'
  have hdst₁ := hdst.cluster.1.ne'
  have hdst₂ := hdst.node.1.ne'
  have hrange : ¬(s.D ≤ u.domain ∧ s.D ≤ dst.domain) := by omega
  unfold lookupHier
  rw [if_neg hsrc, if_neg hdst₀]
  dsimp only
  rw [ht]
  dsimp only
  rw [if_neg hrange]
  have hnext : (if dst.cluster = 0 ∧ dst.node = 0 ∨ u.domain ≠ dst.domain then
        t.hroute (ndIndex u.node dst.domain (s.size u.domain u.cluster) (s.C u.domain) s.D)
      else if dst.node = 0 ∨ u.cluster ≠ dst.cluster then
        t.hroute (ncIndex u.node dst.cluster (s.size u.domain u.cluster) (s.C u.domain) s.D)
      else t.hroute (nnIndex u.node dst.node (s.size u.domain u.cluster) (s.C u.domain) s.D)) =
      t.hroute (index u.node (s.number u.domain u.cluster (toward u dst))
        (s.rows u.domain u.cluster)) := by
    unfold toward
    rw [Point.nnIndex_eq, Point.ncIndex_eq, Point.ndIndex_eq]
    by_cases hdom : u.domain = dst.domain
    · by_cases hcl : u.cluster = dst.cluster
      · rw [if_neg (by tauto), if_neg (by tauto), if_neg (not_not.2 hdom), if_neg (not_not.2 hcl)]
        rfl
      · rw [if_neg (by tauto), if_pos (by tauto), if_neg (not_not.2 hdom), if_pos hcl]
        rfl
    · rw [if_pos (by tauto), if_pos hdom]
      rfl
  change (if 0 < (if _ then _ else _) then _ else _) = _
  unfold HierShape.size at hnext
  rw [hnext]
  rfl

/-- A packet goes over a link to the first point of a shortest walk in the graph of its cluster. -/
theorem lookupHier_spec (hg : g.Fits) (hs : s.toHierShape = g) (hl : g.Between l)
    (ht : s.tables (index u.domain u.cluster g.Cmax) =
      some (routed g hopcnt u.domain u.cluster t)) (h : Holds g l u.domain u.cluster t)
    (hu : g.Mem u) (hdst : g.Mem dst) (hne : u ≠ dst)
    (hw : Walk (Own l u.domain u.cluster) (.node u.node) (toward u dst) c)
    (hlt : c < infinity ℤ) :
    ∃ b d, s.lookupHier u dst = .next b ∧ (u, b) ∈ l ∧
      Shortest (Own l u.domain u.cluster) (toward u dst) (toward u b) d ∧
      Shortest (Own l u.domain u.cluster) (toward u dst) (.node u.node) (1 + d) := by
  subst hs
  have hc := hu.hasCluster
  have hp : s.Valid u.domain u.cluster (.node u.node) := hu.node
  have hq : s.Valid u.domain u.cluster (toward u dst) :=
    HierShape.valid_toward hdst fun _ => ⟨rfl, fun _ => rfl⟩
  have hpq : toward u dst ≠ .node u.node := by
    intro heq
    obtain ⟨h₁, h₂, h₃⟩ := toward_eq_node.1 heq
    exact hne (HierAddr.ext h₁ h₂ h₃.symm)
  obtain ⟨r, d, hr, hown, hrest, hfirst⟩ := h.route_spec hc hl hp hq hpq hw hlt
  have hcell : (routed s.toHierShape hopcnt u.domain u.cluster t).hroute
      (index u.node (s.number u.domain u.cluster (toward u dst)) (s.rows u.domain u.cluster)) =
      s.number u.domain u.cluster r := by
    refine (if_pos (index_lt ?_ ?_)).trans hr
    · exact (mem_nodes.1 (HierShape.number_mem hc hp)).2
    · exact (mem_nodes.1 (HierShape.number_mem hc hq)).2
  rw [lookupHier_eq ht hu hdst, hcell]
  have hpos := (mem_nodes.1 (HierShape.number_mem hc (hl.valid hown).2)).1
  obtain ⟨b, hb, hmem, hto⟩ := h.getAddress_spec hl hown
  refine ⟨b, d, ?_, hmem, hto ▸ hrest, hfirst⟩
  have hb' : getAddress (routed s.toHierShape hopcnt u.domain u.cluster t) _ _ _ _ u = some b := hb
  rw [if_pos hpos, hb']

end HierLogic

end Ns2
