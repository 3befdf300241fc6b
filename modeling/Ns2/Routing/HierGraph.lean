import Ns2.Routing.HierLogic
import Ns2.Routing.RouteScan

/-! The graph that a cluster keeps of the network, and that the tables of `HierLogic` hold it after
the links are inserted. -/

namespace Ns2

open List Function

/-- What a cluster has a row for. -/
inductive Point where
  | node (z : ℕ)
  | cluster (y : ℕ)
  | domain (x : ℕ)
deriving DecidableEq

namespace Point

/-- The row of a point, in a cluster of `size` nodes and a domain of `c - 1` clusters. -/
def number (size c : ℕ) : Point → ℕ
  | node z => z
  | cluster y => size + y
  | domain x => size + (c - 1) + x

/-- The point is one of `size` nodes, `c - 1` clusters and `D - 1` domains. -/
def Valid (size c D : ℕ) : Point → Prop
  | node z => 0 < z ∧ z ≤ size
  | cluster y => 0 < y ∧ y < c
  | domain x => 0 < x ∧ x < D

variable {size c D : ℕ} {p q : Point}

theorem number_inj (hp : p.Valid size c D) (hq : q.Valid size c D)
    (h : p.number size c = q.number size c) : p = q := by
  cases p <;> cases q <;> simp only [Valid, number] at hp hq h <;> first | omega | congr 1
  · omega
  · omega

theorem number_mem (hp : p.Valid size c D) (hD : 0 < D) :
    p.number size c ∈ RouteScan.nodes (size + c + D) := by
  rw [RouteScan.mem_nodes]
  cases p <;> simp only [Valid, number] at hp ⊢ <;> omega

section

variable (i j : ℕ)
include i j

theorem nnIndex_eq : nnIndex i j size c D =
    index ((node i).number size c) ((node j).number size c) (size + c + D) := by
  unfold nnIndex index
  rw [Nat.mul_comm i]
  rfl

theorem ncIndex_eq : ncIndex i j size c D =
    index ((node i).number size c) ((cluster j).number size c) (size + c + D) := by
  unfold ncIndex index
  rw [Nat.mul_comm i]
  rfl

theorem ndIndex_eq : ndIndex i j size c D =
    index ((node i).number size c) ((domain j).number size c) (size + c + D) := by
  unfold ndIndex index
  rw [Nat.mul_comm i]
  rfl

theorem ccIndex_eq : ccIndex i j size c D =
    index ((cluster i).number size c) ((cluster j).number size c) (size + c + D) := by
  unfold ccIndex index
  rw [Nat.mul_comm (size + i)]
  rfl

theorem cdIndex_eq : cdIndex i j size c D =
    index ((cluster i).number size c) ((domain j).number size c) (size + c + D) := by
  unfold cdIndex index
  rw [Nat.mul_comm (size + i)]
  rfl

theorem ddIndex_eq : ddIndex i j size c D =
    index ((domain i).number size c) ((domain j).number size c) (size + c + D) := by
  unfold ddIndex index
  rw [Nat.mul_comm (size + (c - 1) + i)]
  rfl

end

end Point

/-- What a link from `a` to `b` leads to, for the clusters that have a row for `a`. -/
def toward (a b : HierAddr) : Point :=
  if a.domain ≠ b.domain then .domain b.domain
  else if a.cluster ≠ b.cluster then .cluster b.cluster
  else .node b.node

/-- The points of the cluster `y` of the domain `x` that stand for the end `a` of a link to `b`. -/
inductive Stands (x y : ℕ) (a b : HierAddr) : Point → Prop
  | node (hx : a.domain = x) (hy : a.cluster = y) : Stands x y a b (.node a.node)
  | cluster (hx : a.domain = x) (h : a.domain = b.domain → a.cluster ≠ b.cluster) :
    Stands x y a b (.cluster a.cluster)
  | domain (h : a.domain ≠ b.domain) : Stands x y a b (.domain a.domain)

/-- A link between different clusters concerns those that have a row for its start. -/
def Touched (x y : ℕ) (a b : HierAddr) : Prop :=
  a.domain = b.domain → a.domain = x ∧ (a.cluster = b.cluster → a.cluster = y)

instance {x y : ℕ} {a b : HierAddr} : Decidable (Touched x y a b) := by
  unfold Touched
  infer_instance

theorem touched_of_stands {x y : ℕ} {a b : HierAddr} {p : Point} (h : Stands x y a b p) : Touched x y a b := by
  intro hab
  cases h with
  | node hx hy => exact ⟨hx, fun _ => hy⟩
  | cluster hx hc => exact ⟨hx, fun h => absurd h (hc hab)⟩
  | domain h => exact absurd hab h

/-- The graph of the cluster `y` of the domain `x`: every link costs 1. -/
def Own (l : List (HierAddr × HierAddr)) (x y : ℕ) (p q : Point) (cost : ℤ) : Prop :=
  cost = 1 ∧ ∃ a b, (a, b) ∈ l ∧ Stands x y a b p ∧ q = toward a b

namespace HierShape

/-- The address is that of a node. -/
structure Mem (g : HierShape) (a : HierAddr) : Prop where
  domain : 0 < a.domain ∧ a.domain < g.D
  cluster : 0 < a.cluster ∧ a.cluster < g.C a.domain
  node : 0 < a.node ∧ a.node ≤ g.clusterSize (index a.domain a.cluster g.Cmax)

/-- There is a cluster `y` of the domain `x`. -/
structure HasCluster (g : HierShape) (x y : ℕ) : Prop where
  domain : 0 < x ∧ x < g.D
  cluster : 0 < y ∧ y < g.C x

def size (g : HierShape) (x y : ℕ) : ℕ := g.clusterSize (index x y g.Cmax)

/-- The number of a point in the tables of a cluster. -/
def number (g : HierShape) (x y : ℕ) (p : Point) : ℕ := p.number (g.size x y) (g.C x)

def Valid (g : HierShape) (x y : ℕ) (p : Point) : Prop := p.Valid (g.size x y) (g.C x) g.D

/-- The cell of `hconnect` for a link from the node `z` to a point. -/
def connection (g : HierShape) (x y z : ℕ) (q : Point) : ℕ :=
  index z (g.number x y q - g.size x y) (g.C x + g.D)

/-- The length of a row. -/
def rows (g : HierShape) (x y : ℕ) : ℕ := g.size x y + g.C x + g.D

variable {g : HierShape} {x y x' y' : ℕ} {a b : HierAddr} {p q : Point}

theorem connection_cluster (z j : ℕ) :
    g.connection x y z (.cluster j) = z * (g.C x + g.D) + j := by
  simp only [connection, number, Point.number, index, Nat.add_sub_cancel_left, Nat.mul_comm]

theorem connection_domain (z j : ℕ) :
    g.connection x y z (.domain j) = z * (g.C x + g.D) + (g.C x - 1 + j) := by
  simp only [connection, number, Point.number, index, Nat.add_assoc, Nat.add_sub_cancel_left,
    Nat.mul_comm]

theorem Mem.hasCluster (h : g.Mem a) : g.HasCluster a.domain a.cluster := ⟨h.domain, h.cluster⟩

theorem number_mem (h : g.HasCluster x y) (hp : g.Valid x y p) :
    g.number x y p ∈ RouteScan.nodes (g.rows x y) :=
  Point.number_mem hp (h.domain.1.trans h.domain.2)

theorem number_inj (hp : g.Valid x y p) (hq : g.Valid x y q)
    (h : g.number x y p = g.number x y q) : p = q := Point.number_inj hp hq h

theorem valid_toward (hb : g.Mem b) (ht : Touched x y a b) : g.Valid x y (toward a b) := by
  unfold toward
  split_ifs with h₁ h₂
  · exact hb.domain
  · rw [not_not] at h₁
    obtain ⟨rfl, -⟩ := ht h₁
    exact h₁ ▸ hb.cluster
  · rw [not_not] at h₁ h₂
    obtain ⟨rfl, hy⟩ := ht h₁
    obtain rfl := hy h₂
    have := hb.node
    rw [← h₁, ← h₂] at this
    exact this

theorem valid_of_stands (ha : g.Mem a) (h : Stands x y a b p) : g.Valid x y p := by
  cases h with
  | node hx hy =>
    subst hx hy
    exact ha.node
  | cluster hx h =>
    subst hx
    exact ha.cluster
  | domain h => exact ha.domain

/-- Links are between nodes. -/
def Between (g : HierShape) (l : List (HierAddr × HierAddr)) : Prop :=
  ∀ a b, (a, b) ∈ l → g.Mem a ∧ g.Mem b

theorem Between.valid {l : List (HierAddr × HierAddr)} {cost : ℤ} (hl : g.Between l)
    (h : Own l x y p q cost) : g.Valid x y p ∧ g.Valid x y q := by
  obtain ⟨-, a, b, hmem, hp, rfl⟩ := h
  obtain ⟨ha, hb⟩ := hl a b hmem
  exact ⟨valid_of_stands ha hp, valid_toward hb (touched_of_stands hp)⟩

theorem connection_inj {z z' : ℕ} (h : g.HasCluster x y) (hp : g.Valid x y p) (hq : g.Valid x y q)
    (hpn : ∀ z, p ≠ .node z) (hqn : ∀ z, q ≠ .node z) :
    g.connection x y z p = g.connection x y z' q ↔ z = z' ∧ p = q := by
  have hlt : ∀ {p}, g.Valid x y p → g.number x y p - g.size x y < g.C x + g.D := fun hp => by
    have := (RouteScan.mem_nodes.1 (number_mem h hp)).2
    unfold rows at this
    have := h.domain
    omega
  have hge : ∀ {p}, (∀ z, p ≠ .node z) → g.size x y ≤ g.number x y p := fun {p} hp => by
    cases p with
    | node z => exact absurd rfl (hp z)
    | cluster y => exact Nat.le_add_right _ _
    | domain x => exact (Nat.le_add_right _ _).trans (Nat.le_add_right _ _)
  unfold connection
  rw [index_inj (hlt hp) (hlt hq)]
  refine and_congr_right fun _ => ⟨fun heq => ?_, fun heq => by rw [heq]⟩
  have hp' := hge hpn
  have hq' := hge hqn
  exact number_inj hp hq (by omega)

/-- There is room for the clusters of every domain. -/
def Fits (g : HierShape) : Prop := ∀ x, 0 < x → x < g.D → g.C x ≤ g.Cmax

theorem HasCluster.lt (h : g.HasCluster x y) (hg : g.Fits) : y < g.Cmax :=
  h.cluster.2.trans_le (hg x h.domain.1 h.domain.2)

theorem HasCluster.index_ne (h : g.HasCluster x y) (hg : g.Fits) (h' : g.HasCluster x' y')
    (hne : x = x' → y ≠ y') : index x y g.Cmax ≠ index x' y' g.Cmax := fun heq =>
  have := (index_inj (h.lt hg) (h'.lt hg)).1 heq
  hne this.1 this.2

end HierShape

namespace HierLogic

open HierTables
open RouteScan (nodes mem_nodes nodup_nodes)

variable {s : HierLogic} {g : HierShape} {i j x y : ℕ} {a b : HierAddr} {cost : ℤ}
  {f : HierTables → HierTables}
variable {l : List (HierAddr × HierAddr)} {t : HierTables} {cell : ℕ}
variable {F : HierLogic → ℕ → HierLogic} {z : ℕ}

@[simp] theorem hierCheck_shape : (s.hierCheck i).toHierShape = s.toHierShape := by
  unfold hierCheck
  split_ifs <;> rfl

@[simp] theorem write_shape : (s.write i f).toHierShape = s.toHierShape := rfl

theorem hierCheck_tables :
    (s.hierCheck i).tables j = if j = i then some ((s.tables i).getD hierAlloc) else s.tables j := by
  unfold hierCheck
  cases h : s.tables i with
  | none => simp [update_apply]
  | some t =>
    by_cases hj : j = i
    · simp [hj, h]
    · simp [hj]

theorem write_tables :
    (s.write i f).tables j = if j = i then (s.tables i).map f else s.tables j :=
  update_apply _ _ _ _

theorem put_tables : ((s.hierCheck i).write i f).tables j =
    if j = i then some (f ((s.tables i).getD hierAlloc)) else s.tables j := by
  rw [write_tables, hierCheck_tables, hierCheck_tables, if_pos rfl]
  split_ifs <;> rfl

theorem foldl_at {β : Type*} {V : HierLogic → β} {G : β → β} {k : ℕ} {l : List ℕ} (hl : l.Nodup)
    (hs : s.toHierShape = g) (hshape : ∀ s, ∀ y ∈ l, s.toHierShape = g → (F s y).toHierShape = g)
    (hown : k ∈ l → ∀ s, s.toHierShape = g → V (F s k) = G (V s))
    (hother : ∀ s, ∀ y ∈ l, s.toHierShape = g → y ≠ k → V (F s y) = V s) :
    V (l.foldl F s) = (if k ∈ l then G (V s) else V s) ∧ (l.foldl F s).toHierShape = g := by
  induction l generalizing s with
  | nil => exact ⟨rfl, hs⟩
  | cons y l ih =>
    rw [nodup_cons] at hl
    obtain ⟨hV, hg⟩ := ih hl.2 (hshape s y mem_cons_self hs)
      (fun s z hz => hshape s z (mem_cons_of_mem y hz))
      (fun h => hown (mem_cons_of_mem y h)) fun s z hz => hother s z (mem_cons_of_mem y hz)
    refine ⟨?_, hg⟩
    rw [foldl_cons, hV]
    by_cases hy : y = k
    · subst hy
      rw [if_neg hl.1, if_pos mem_cons_self, hown mem_cons_self s hs]
    · rw [hother s y mem_cons_self hs hy]
      simp only [mem_cons, Ne.symm hy, false_or]

/-- What inserting a link from `a` to `b` writes in the tables of the cluster `y` of the domain
`x`. -/
def touch (g : HierShape) (x y : ℕ) (a b : HierAddr) (cost : ℤ) (t : HierTables) : HierTables :=
  let n := g.size x y
  let c := g.C x
  if a.domain = b.domain then
    if a.cluster = b.cluster then t.setCost (nnIndex a.node b.node n c g.D) cost
    else if y = a.cluster then
      ((t.setCost (ccIndex a.cluster b.cluster n c g.D) cost).setCost
        (ncIndex a.node b.cluster n c g.D) cost).setConnect (a.node * (c + g.D) + b.cluster) b
    else t.setCost (ccIndex a.cluster b.cluster n c g.D) cost
  else
    let t := t.setCost (ddIndex a.domain b.domain n c g.D) cost
    if x = a.domain then
      let t := t.setCost (cdIndex a.cluster b.domain n c g.D) cost
      if y = a.cluster then
        (t.setCost (ndIndex a.node b.domain n c g.D) cost).setConnect
          (a.node * (c + g.D) + (c - 1 + b.domain)) b
      else t
    else t

theorem insertCluster_shape : (insertCluster a b cost s y).toHierShape = s.toHierShape := by
  unfold insertCluster
  split_ifs <;> simp

theorem insertCluster_own (hs : s.toHierShape = g) (hx : a.domain = b.domain)
    (hy : a.cluster ≠ b.cluster) :
    (insertCluster a b cost s y).tables (index a.domain y g.Cmax) =
      some (touch g a.domain y a b cost ((s.tables (index a.domain y g.Cmax)).getD hierAlloc)) := by
  subst hs
  unfold insertCluster touch
  rw [if_pos hx, if_neg hy]
  dsimp only
  split_ifs with h
  · rw [write_tables, if_pos rfl, write_tables, if_pos rfl, put_tables, if_pos rfl]
    simp only [write_shape, hierCheck_shape]
    rfl
  · rw [put_tables, if_pos rfl]
    rfl

theorem insertCluster_other (hs : s.toHierShape = g) (hj : j ≠ index a.domain y g.Cmax) :
    (insertCluster a b cost s y).tables j = s.tables j := by
  subst hs
  unfold insertCluster
  dsimp only
  split_ifs with h
  · rw [write_tables, if_neg hj, write_tables, if_neg hj, put_tables, if_neg hj]
  · rw [put_tables, if_neg hj]

theorem foldl_clusters {φ : ℕ → HierTables → HierTables} (hs : s.toHierShape = g) (hg : g.Fits)
    (hx' : 0 < x' ∧ x' < g.D) (hc : g.HasCluster x y)
    (hshape : ∀ s y, (F s y).toHierShape = s.toHierShape)
    (hown : ∀ s y, s.toHierShape = g → (F s y).tables (index x' y g.Cmax) =
      some (φ y ((s.tables (index x' y g.Cmax)).getD hierAlloc)))
    (hother : ∀ s y j, s.toHierShape = g → j ≠ index x' y g.Cmax →
      (F s y).tables j = s.tables j) :
    ((nodes (g.C x')).foldl F s).tables (index x y g.Cmax) =
        (if x' = x then some (φ y ((s.tables (index x y g.Cmax)).getD hierAlloc))
        else s.tables (index x y g.Cmax)) ∧
      ((nodes (g.C x')).foldl F s).toHierShape = g := by
  have hne : ∀ y' ∈ nodes (g.C x'), (x = x' → y ≠ y') →
      index x y g.Cmax ≠ index x' y' g.Cmax :=
    fun y' hy' h => hc.index_ne hg ⟨hx', mem_nodes.1 hy'⟩ h
  have hy : y ∈ nodes (g.C x) := mem_nodes.2 hc.cluster
  by_cases hx : x' = x
  · subst hx
    have hloop := foldl_at (V := fun s => s.tables (index x' y g.Cmax)) (k := y)
      (G := fun t => some (φ y (t.getD hierAlloc))) (nodup_nodes (g.C x')) hs
      (fun s y _ h => (hshape s y).trans h) (fun _ s h => hown s y h)
      fun s y' hy' h hyy => hother s y' _ h (hne y' hy' fun _ => hyy.symm)
    rw [if_pos hy] at hloop
    rwa [if_pos rfl]
  · have hloop := foldl_at (V := fun s => s.tables (index x y g.Cmax)) (G := id) (k := 0)
      (nodup_nodes (g.C x')) hs (fun s y _ h => (hshape s y).trans h)
      (fun h => absurd h RouteScan.not_mem_zero)
      fun s y' hy' h _ => hother s y' _ h (hne y' hy' fun h => absurd h.symm hx)
    rw [if_neg RouteScan.not_mem_zero] at hloop
    rwa [if_neg hx]

theorem insertDomains_tables (a b : HierAddr) (cost : ℤ) (hs : s.toHierShape = g) (hg : g.Fits) (hc : g.HasCluster x y) :
    ((nodes g.D).foldl (fun s x => (nodes (s.C x)).foldl (insertDomain a b cost x) s) s).tables
        (index x y g.Cmax) =
      some (setCost (ddIndex a.domain b.domain (g.size x y) (g.C x) g.D) cost
        ((s.tables (index x y g.Cmax)).getD hierAlloc)) ∧
    ((nodes g.D).foldl (fun s x => (nodes (s.C x)).foldl (insertDomain a b cost x) s)
      s).toHierShape = g := by
  have hinner : ∀ x' s, s.toHierShape = g → 0 < x' ∧ x' < g.D →
      ((nodes (s.C x')).foldl (insertDomain a b cost x') s).tables (index x y g.Cmax) =
        (if x' = x then some (setCost (ddIndex a.domain b.domain (g.size x' y) (g.C x') g.D) cost
          ((s.tables (index x y g.Cmax)).getD hierAlloc)) else s.tables (index x y g.Cmax)) ∧
      ((nodes (s.C x')).foldl (insertDomain a b cost x') s).toHierShape = g := by
    intro x' s hs hx'
    rw [show s.C = g.C from hs ▸ rfl]
    refine foldl_clusters (φ := fun y => setCost (ddIndex a.domain b.domain (g.size x' y) (g.C x')
      g.D) cost) hs hg hx' hc (fun s y => ?_) (fun s y h => ?_) fun s y j h hj => ?_
    · simp [insertDomain]
    · subst h
      exact put_tables.trans (if_pos rfl)
    · subst h
      exact put_tables.trans (if_neg hj)
  have hloop := foldl_at (V := fun s => s.tables (index x y g.Cmax)) (k := x)
    (F := fun s x => (nodes (s.C x)).foldl (insertDomain a b cost x) s)
    (G := fun t => some (setCost (ddIndex a.domain b.domain (g.size x y) (g.C x) g.D) cost
      (t.getD hierAlloc))) (nodup_nodes g.D) hs
    (fun s x' hx' h => (hinner x' s h (mem_nodes.1 hx')).2)
    (fun _ s h => by rw [(hinner x s h hc.domain).1, if_pos rfl])
    fun s x' hx' h hne => by rw [(hinner x' s h (mem_nodes.1 hx')).1, if_neg hne]
  rwa [if_pos (mem_nodes.2 hc.domain)] at hloop

theorem insertBorders_tables (b : HierAddr) (cost : ℤ) (hs : s.toHierShape = g) (hg : g.Fits) (ha : g.Mem a)
    (hc : g.HasCluster x y) :
    ((nodes (g.C a.domain)).foldl (insertBorder a b cost) s).tables (index x y g.Cmax) =
        (if a.domain = x then some (setCost (cdIndex a.cluster b.domain (g.size a.domain y)
          (g.C a.domain) g.D) cost ((s.tables (index x y g.Cmax)).getD hierAlloc))
        else s.tables (index x y g.Cmax)) ∧
      ((nodes (g.C a.domain)).foldl (insertBorder a b cost) s).toHierShape = g := by
  refine foldl_clusters (φ := fun y => setCost (cdIndex a.cluster b.domain (g.size a.domain y)
    (g.C a.domain) g.D) cost) hs hg ha.domain hc (fun s y => ?_) (fun s y h => ?_)
    fun s y j h hj => ?_
  · simp [insertBorder]
  · subst h
    exact put_tables.trans (if_pos rfl)
  · subst h
    exact put_tables.trans (if_neg hj)

theorem hierInsert_tables (b : HierAddr) (cost : ℤ) (hs : s.toHierShape = g) (hg : g.Fits) (ha : g.Mem a)
    (hc : g.HasCluster x y) :
    (hierInsert a b cost s).tables (index x y g.Cmax) =
        (if Touched x y a b then
          some (touch g x y a b cost ((s.tables (index x y g.Cmax)).getD hierAlloc))
        else s.tables (index x y g.Cmax)) ∧
      (hierInsert a b cost s).toHierShape = g := by
  have hown : (index x y g.Cmax = index a.domain a.cluster g.Cmax) ↔
      x = a.domain ∧ y = a.cluster := index_inj (hc.lt hg) (ha.hasCluster.lt hg)
  unfold hierInsert
  by_cases hab : a.domain = b.domain
  · by_cases hcl : a.cluster = b.cluster
    · subst hs
      rw [if_pos hab, if_pos hcl]
      refine ⟨?_, by simp⟩
      dsimp only
      rw [put_tables]
      by_cases h : x = a.domain ∧ y = a.cluster
      · obtain ⟨rfl, rfl⟩ := h
        have ht : Touched a.domain a.cluster a b := fun _ => ⟨rfl, fun _ => rfl⟩
        rw [if_pos rfl, if_pos ht]
        unfold touch
        rw [if_pos hab, if_pos hcl]
        rfl
      · have ht : ¬Touched x y a b := fun ht => h ⟨(ht hab).1.symm, ((ht hab).2 hcl).symm⟩
        rw [if_neg (mt hown.1 h), if_neg ht]
    · rw [if_pos hab, if_neg hcl, show s.C = g.C from hs ▸ rfl]
      obtain ⟨htables, hshape⟩ := foldl_clusters (φ := fun y => touch g a.domain y a b cost) hs hg
        ha.domain hc (F := insertCluster a b cost) (fun s y => insertCluster_shape)
        (fun s y h => insertCluster_own h hab hcl) (fun s y j h => insertCluster_other h)
      refine ⟨?_, hshape⟩
      rw [htables]
      by_cases hx : a.domain = x
      · subst hx
        have ht : Touched a.domain y a b := fun _ => ⟨rfl, fun h => absurd h hcl⟩
        rw [if_pos rfl, if_pos ht]
      · have ht : ¬Touched x y a b := fun ht => hx (ht hab).1
        rw [if_neg hx, if_neg ht]
  · obtain ⟨h₁, hs₁⟩ := insertDomains_tables a b cost hs hg hc
    obtain ⟨h₂, hs₂⟩ := insertBorders_tables b cost hs₁ hg ha hc
    have ht : Touched x y a b := fun h => absurd h hab
    rw [if_neg hab, if_pos ht, show s.D = g.D from hs ▸ rfl]
    dsimp only
    generalize (nodes g.D).foldl (fun s x => (nodes (s.C x)).foldl (insertDomain a b cost x) s) s = s₁
      at *
    rw [show s₁.C = g.C from hs₁ ▸ rfl]
    generalize (nodes (g.C a.domain)).foldl (insertBorder a b cost) s₁ = s₂ at *
    subst hs₂
    refine ⟨?_, rfl⟩
    rw [h₁] at h₂
    rw [write_tables, write_tables, write_tables]
    unfold touch
    rw [if_neg hab]
    dsimp only
    by_cases hx : x = a.domain
    · subst hx
      by_cases hy : y = a.cluster
      · subst hy
        simp only [↓reduceIte] at h₂ ⊢
        rw [h₂]
        rfl
      · have hne := mt hown.1 fun h => hy h.2
        simp only [hne, hy, ↓reduceIte] at h₂ ⊢
        exact h₂
    · have hne := mt hown.1 fun h => hx h.1
      simp only [hne, hx, Ne.symm hx, ↓reduceIte] at h₂ ⊢
      exact h₂

theorem exists_stands {P : Point → Prop} : (∃ p, Stands x y a b p ∧ P p) ↔
    (a.domain = x ∧ a.cluster = y ∧ P (.node a.node)) ∨
      (a.domain = x ∧ (a.domain = b.domain → a.cluster ≠ b.cluster) ∧ P (.cluster a.cluster)) ∨
      (a.domain ≠ b.domain ∧ P (.domain a.domain)) := by
  constructor
  · rintro ⟨p, hp, hP⟩
    cases hp with
    | node hx hy => exact .inl ⟨hx, hy, hP⟩
    | cluster hx h => exact .inr (.inl ⟨hx, h, hP⟩)
    | domain h => exact .inr (.inr ⟨h, hP⟩)
  · rintro (⟨hx, hy, hP⟩ | ⟨hx, h, hP⟩ | ⟨h, hP⟩)
    · exact ⟨_, .node hx hy, hP⟩
    · exact ⟨_, .cluster hx h, hP⟩
    · exact ⟨_, .domain h, hP⟩

theorem setCost_hadj : (setCost cell cost t).hadj i = if i = cell then cost else t.hadj i :=
  update_apply _ _ _ _

theorem setConnect_hadj : (setConnect cell a t).hadj = t.hadj := rfl

theorem touch_hadj {u v : ℕ} (ht : Touched x y a b) (hq : g.number x y (toward a b) < g.rows x y)
    (hv : v < g.rows x y) :
    ((∃ p, Stands x y a b p ∧ u = g.number x y p ∧ v = g.number x y (toward a b)) ∧
        (touch g x y a b cost t).hadj (index u v (g.rows x y)) = cost) ∨
      ((¬∃ p, Stands x y a b p ∧ u = g.number x y p ∧ v = g.number x y (toward a b)) ∧
        (touch g x y a b cost t).hadj (index u v (g.rows x y)) = t.hadj (index u v (g.rows x y))) := by
  have hcell : ∀ {w}, index u v (g.rows x y) = index w (g.number x y (toward a b)) (g.rows x y) ↔
      u = w ∧ v = g.number x y (toward a b) := index_inj hv hq
  rw [exists_stands]
  unfold HierShape.number HierShape.rows toward at *
  by_cases hab : a.domain = b.domain
  · by_cases hcl : a.cluster = b.cluster
    · obtain ⟨rfl, rfl⟩ : x = a.domain ∧ y = a.cluster := ⟨(ht hab).1.symm, ((ht hab).2 hcl).symm⟩
      unfold touch
      simp only [ne_eq, hab, hcl, not_true_eq_false, ↓reduceIte] at hcell ⊢
      simp only [setCost_hadj, Point.nnIndex_eq, hcell]
      grind
    · have hx := (ht hab).1
      unfold touch
      simp only [ne_eq, hab, hcl, not_true_eq_false, not_false_eq_true, ↓reduceIte] at hcell ⊢
      by_cases hy : y = a.cluster
      · simp only [hy, ↓reduceIte, setConnect_hadj, setCost_hadj, Point.ccIndex_eq, Point.ncIndex_eq]
        grind
      · simp only [hy, ↓reduceIte, setCost_hadj, Point.ccIndex_eq, hcell]
        grind
  · unfold touch
    simp only [ne_eq, hab, not_false_eq_true, ↓reduceIte] at hcell ⊢
    by_cases hx : x = a.domain
    · by_cases hy : y = a.cluster
      · simp only [hx, hy, ↓reduceIte, setConnect_hadj, setCost_hadj, Point.ddIndex_eq,
          Point.cdIndex_eq, Point.ndIndex_eq]
        grind
      · simp only [hx, hy, ↓reduceIte, setCost_hadj, Point.ddIndex_eq, Point.cdIndex_eq]
        grind
    · simp only [hx, ↓reduceIte, setCost_hadj, Point.ddIndex_eq, hcell]
      grind

theorem setCost_hconnect : (setCost cell cost t).hconnect = t.hconnect := rfl

theorem setConnect_hconnect :
    (setConnect cell a t).hconnect i = if i = cell then some a else t.hconnect i :=
  update_apply _ _ _ _

theorem touch_hconnect (ht : Touched x y a b) :
    (touch g x y a b cost t).hconnect i =
      if (a.domain = b.domain → a.cluster ≠ b.cluster) ∧ (x = a.domain ∧ y = a.cluster) ∧
          i = g.connection x y a.node (toward a b) then some b
      else t.hconnect i := by
  unfold touch toward
  by_cases hab : a.domain = b.domain
  · by_cases hcl : a.cluster = b.cluster
    · simp [hab, hcl, setCost_hconnect]
    · have hx := (ht hab).1
      simp only [ne_eq, hab, hcl, not_true_eq_false, not_false_eq_true, ↓reduceIte]
      by_cases hy : y = a.cluster
      · simp [hy, ← hx, hab, setConnect_hconnect, setCost_hconnect, HierShape.connection_cluster]
      · simp [hy, setCost_hconnect]
  · simp only [ne_eq, hab, not_false_eq_true, ↓reduceIte]
    by_cases hx : x = a.domain
    · by_cases hy : y = a.cluster
      · simp [hx, hy, setConnect_hconnect, setCost_hconnect, HierShape.connection_domain]
      · simp [hx, hy, setCost_hconnect]
    · simp [hx, setCost_hconnect]

theorem own_node {q : Point} (h : Own l x y (.node z) q cost) :
    ∃ b, (⟨x, y, z⟩, b) ∈ l ∧ q = toward ⟨x, y, z⟩ b := by
  obtain ⟨-, a, b, hab, hs, hq⟩ := h
  cases hs with
  | node hx hy =>
    subst hx hy
    exact ⟨b, hab, hq⟩

/-- The tables of the cluster `y` of the domain `x` hold the links `l`. -/
structure Holds (g : HierShape) (l : List (HierAddr × HierAddr)) (x y : ℕ) (t : HierTables) :
    Prop where
  adj : ∀ u, ∀ v < g.rows x y,
    ((∃ p q, Own l x y p q 1 ∧ u = g.number x y p ∧ v = g.number x y q) ∧
        t.hadj (index u v (g.rows x y)) = 1) ∨
      ((¬∃ p q, Own l x y p q 1 ∧ u = g.number x y p ∧ v = g.number x y q) ∧
        t.hadj (index u v (g.rows x y)) = infinity ℤ)
  connect : ∀ z q, Own l x y (.node z) q 1 → (∀ z', q ≠ .node z') →
    ∃ b, t.hconnect (g.connection x y z q) = some b ∧ (⟨x, y, z⟩, b) ∈ l ∧ toward ⟨x, y, z⟩ b = q

theorem holds_nil : Holds g [] x y hierAlloc := by
  refine ⟨fun u v _ => .inr ⟨?_, rfl⟩, ?_⟩
  · rintro ⟨p, q, ⟨-, a, b, hl, -⟩, -⟩
    exact not_mem_nil hl
  · rintro z q ⟨-, a, b, hl, -⟩
    exact absurd hl not_mem_nil

theorem own_append {p q : Point} :
    Own (l ++ [(a, b)]) x y p q 1 ↔ Own l x y p q 1 ∨ Stands x y a b p ∧ q = toward a b := by
  unfold Own
  constructor
  · rintro ⟨-, a', b', hl, h⟩
    rcases mem_append.1 hl with hl | hl
    · exact .inl ⟨rfl, a', b', hl, h⟩
    · obtain ⟨rfl, rfl⟩ := Prod.mk.inj (mem_singleton.1 hl)
      exact .inr h
  · rintro (⟨-, a', b', hl, h⟩ | h)
    · exact ⟨rfl, a', b', mem_append_left _ hl, h⟩
    · exact ⟨rfl, a, b, mem_append_right _ (mem_singleton_self _), h⟩

theorem Holds.untouched (h : Holds g l x y t) (ht : ¬Touched x y a b) :
    Holds g (l ++ [(a, b)]) x y t := by
  have hown : ∀ p q, Own (l ++ [(a, b)]) x y p q 1 ↔ Own l x y p q 1 := fun p q => by
    rw [own_append]
    exact or_iff_left fun hs => ht (touched_of_stands hs.1)
  refine ⟨fun u v hv => ?_, fun z q hq hne => ?_⟩
  · simp only [hown]
    exact h.adj u v hv
  · obtain ⟨b', hb, hl, hto⟩ := h.connect z q ((hown _ _).1 hq) hne
    exact ⟨b', hb, mem_append_left _ hl, hto⟩

theorem toward_eq_node :
    toward a b = .node z ↔ a.domain = b.domain ∧ a.cluster = b.cluster ∧ b.node = z := by
  unfold toward
  split_ifs with h₁ h₂
  · simp [h₁]
  · simp [h₂]
  · simp [not_not.1 h₁, not_not.1 h₂]

theorem toward_ne_node (h : a.domain = b.domain → a.cluster ≠ b.cluster) (z : ℕ) :
    toward a b ≠ .node z := fun heq =>
  h (toward_eq_node.1 heq).1 (toward_eq_node.1 heq).2.1

theorem Holds.touched (h : Holds g l x y t) (hc : g.HasCluster x y) (hl : g.Between (l ++ [(a, b)]))
    (ht : Touched x y a b) : Holds g (l ++ [(a, b)]) x y (touch g x y a b 1 t) := by
  have hb := (hl a b (mem_append_right _ (mem_singleton_self _))).2
  have hto := HierShape.valid_toward hb ht
  refine ⟨fun u v hv => ?_, fun z q hown hne => ?_⟩
  · simp only [own_append]
    rcases touch_hadj (t := t) (u := u) ht
      (mem_nodes.1 (HierShape.number_mem hc hto)).2 hv with ⟨⟨p, hp, hu, hv'⟩, heq⟩ | ⟨hno, heq⟩
    · exact .inl ⟨⟨p, _, .inr ⟨hp, rfl⟩, hu, hv'⟩, heq⟩
    · rw [heq]
      rcases h.adj u v hv with ⟨⟨p, q, hpq, huv⟩, hold⟩ | ⟨hold, hinf⟩
      · exact .inl ⟨⟨p, q, .inl hpq, huv⟩, hold⟩
      · refine .inr ⟨?_, hinf⟩
        rintro ⟨p, q, hpq | ⟨hp, rfl⟩, hu, hv'⟩
        · exact hold ⟨p, q, hpq, hu, hv'⟩
        · exact hno ⟨p, hp, hu, hv'⟩
  · rw [touch_hconnect ht]
    have hq := (hl.valid hown).2
    split_ifs with hi
    · obtain ⟨hcross, ⟨rfl, rfl⟩, heq⟩ := hi
      obtain ⟨rfl, rfl⟩ :=
        (HierShape.connection_inj hc hq hto hne (toward_ne_node hcross)).1 heq
      exact ⟨b, rfl, mem_append_right _ (mem_singleton_self _), rfl⟩
    · rcases own_append.1 hown with hold | ⟨hs, rfl⟩
      · obtain ⟨b', hb', hmem, hto'⟩ := h.connect z q hold hne
        exact ⟨b', hb', mem_append_left _ hmem, hto'⟩
      · cases hs with
        | node hx hy =>
          refine absurd ⟨fun hab hcl => ?_, ⟨hx.symm, hy.symm⟩, rfl⟩ hi
          exact hne b.node (by simp [toward, hab, hcl])

/-- The links `l` are inserted. -/
structure Entered (g : HierShape) (l : List (HierAddr × HierAddr)) (s : HierLogic) : Prop where
  shape : s.toHierShape = g
  holds : ∀ x y, g.HasCluster x y →
    Holds g l x y ((s.tables (index x y g.Cmax)).getD hierAlloc)
  allocated : ∀ x y a b, g.HasCluster x y → (a, b) ∈ l → Touched x y a b →
    (s.tables (index x y g.Cmax)).isSome

theorem Entered.insert (h : Entered g l s) (hg : g.Fits) (hl : g.Between (l ++ [(a, b)])) :
    Entered g (l ++ [(a, b)]) (s.hierInsert a b 1) := by
  have ha := (hl a b (mem_append_right _ (mem_singleton_self _))).1
  have htables := fun {x y} (hc : g.HasCluster x y) =>
    (hierInsert_tables b 1 h.shape hg ha hc).1
  have hshape : (s.hierInsert a b 1).toHierShape = g :=
    (hierInsert_tables b 1 h.shape hg ha ha.hasCluster).2
  refine ⟨hshape, fun x y hc => ?_, fun x y a' b' hc hmem ht => ?_⟩
  · rw [htables hc]
    split_ifs with ht
    · exact (h.holds x y hc).touched hc hl ht
    · exact (h.holds x y hc).untouched ht
  · rw [htables hc]
    split_ifs with ht'
    · rfl
    · rcases mem_append.1 hmem with hmem | hmem
      · exact h.allocated x y a' b' hc hmem ht
      · obtain ⟨rfl, rfl⟩ := Prod.mk.inj (mem_singleton.1 hmem)
        exact absurd ht ht'

theorem Entered.foldl {l' : List (HierAddr × HierAddr)} (h : Entered g l s) (hg : g.Fits)
    (hl : g.Between (l ++ l')) :
    Entered g (l ++ l') (l'.foldl (fun s l => s.hierInsert l.1 l.2 1) s) := by
  induction l' generalizing l s with
  | nil => rwa [append_nil]
  | cons e l' ih =>
    have heq : l ++ e :: l' = (l ++ [e]) ++ l' := by simp
    rw [heq] at hl ⊢
    exact ih (h.insert hg fun a b hmem => hl a b (mem_append_left _ hmem)) hl

end HierLogic

end Ns2
