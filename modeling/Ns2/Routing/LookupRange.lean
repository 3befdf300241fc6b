import Ns2.Routing.EntryLogic
import Ns2.Routing.HierRoutes

/-! The lookups of `RouteLogic` over runs of its commands, with the lengths of the arrays they read.
Node numbers and addresses are those after `command` has added 1. -/

namespace Ns2

/-- What `adj` points at. -/
inductive AdjArray where
  | null
  | live
  | freed
deriving DecidableEq, Repr

/-- `side` is the length of the rows of `route`, and `hierSide` that of `hroute`, 0 until it is
computed. Without the numbers of domains, clusters and nodes there is no `hier`. -/
structure RouteTables (K E : Type*) where
  flat : EntryLogic K E
  adj : AdjArray
  side : ℕ
  hier : Option HierLogic
  hierSide : ℕ → ℕ

/-- The two forms of `lookup_flat`, and `lookup_hier`. -/
inductive Lookup where
  | flat (src dst : ℕ)
  | number (src dst : ℕ)
  | hier (src dst : HierAddr)
deriving DecidableEq

inductive RouteCmd (K : Type*) where
  | insert (src dst : ℕ) (cost : K)
  | reset (src dst : ℕ)
  | resetAll
  | compute (hopcnt : ℕ → K)
  | hierInsert (src dst : HierAddr) (cost : ℤ)
  | hierCompute (hopcnt : ℕ → ℤ)
  | lookup (q : Lookup)

/-- `outside` is for an element that is in none of the arrays. -/
inductive RouteAnswer where
  | ok
  | error (text : String)
  | nextHop (n : ℤ)
  | hier (r : HierResult)
  | outside
deriving DecidableEq

namespace HierAddr

/-- No number is negative. -/
def Positive (a : HierAddr) : Prop := 0 < a.domain ∧ 0 < a.cluster ∧ 0 < a.node

instance (a : HierAddr) : Decidable a.Positive := by
  unfold Positive
  infer_instance

end HierAddr

namespace HierShape

open RouteScan (nodes)

/-- `hsize` of a cluster with tables. -/
def hsize (g : HierShape) (i : ℕ) : ℕ := (g.clusterSize i + g.Cmax + g.D) ^ 2

def arrSize (g : HierShape) : ℕ := g.Cmax * g.D

instance (g : HierShape) (x y : ℕ) : Decidable (g.HasCluster x y) :=
  decidable_of_iff ((0 < x ∧ x < g.D) ∧ 0 < y ∧ y < g.C x)
    ⟨fun h => ⟨h.1, h.2⟩, fun h => ⟨h.domain, h.cluster⟩⟩

/-- The number is that of a cluster, and the cell is one of its tables. -/
def Owns (g : HierShape) (i cell : ℕ) : Prop :=
  g.HasCluster (i / g.Cmax) (i % g.Cmax) ∧ cell < g.hsize i

/-- The cell is one of the `hconnect` of the cluster. -/
def Connects (g : HierShape) (i cell : ℕ) : Prop :=
  cell < (g.Cmax + g.D) * (g.clusterSize i + 1)

instance (g : HierShape) (i cell : ℕ) : Decidable (g.Owns i cell) := by
  unfold Owns
  infer_instance

instance (g : HierShape) (i cell : ℕ) : Decidable (g.Connects i cell) := by
  unfold Connects
  infer_instance

/-- All that `hier_insert` writes is in the arrays. -/
def Writable (g : HierShape) (a b : HierAddr) : Prop :=
  let i := index a.domain a.cluster g.Cmax
  let n := g.clusterSize
  let c := g.C a.domain
  a.domain < g.D ∧
    if a.domain = b.domain then
      if a.cluster = b.cluster then g.Owns i (nnIndex a.node b.node (n i) c g.D)
      else ∀ y ∈ nodes c,
        g.Owns (index a.domain y g.Cmax)
          (ccIndex a.cluster b.cluster (n (index a.domain y g.Cmax)) c g.D) ∧
        (y = a.cluster → g.Owns i (ncIndex a.node b.cluster (n i) c g.D) ∧
          g.Connects i (a.node * (c + g.D) + b.cluster))
    else
      (∀ x ∈ nodes g.D, ∀ y ∈ nodes (g.C x), g.Owns (index x y g.Cmax)
        (ddIndex a.domain b.domain (n (index x y g.Cmax)) (g.C x) g.D)) ∧
      (∀ y ∈ nodes c, g.Owns (index a.domain y g.Cmax)
        (cdIndex a.cluster b.domain (n (index a.domain y g.Cmax)) c g.D)) ∧
      g.Owns i (ndIndex a.node b.domain (n i) c g.D) ∧
      g.Connects i (a.node * (c + g.D) + (c - 1 + b.domain))

instance (g : HierShape) (a b : HierAddr) : Decidable (g.Writable a b) := by
  unfold Writable
  infer_instance

/-- The last cluster of the loops of `hier_compute`. -/
def lastCluster (g : HierShape) : Option (ℕ × ℕ) :=
  ((nodes g.D).flatMap fun j => (nodes (g.C j)).map fun k => (j, k)).getLast?

/-- The lengths of the rows that `hier_compute` writes. -/
def computeSides (g : HierShape) (side : ℕ → ℕ) : ℕ → ℕ :=
  (nodes g.D).foldl (fun f i => (nodes (g.C i)).foldl (fun f j =>
    Function.update f (index i j g.Cmax) (g.rows i j)) f) side

/-- The cell of a hierarchical route. -/
def cell (g : HierShape) (src dst : HierAddr) : ℕ :=
  let size := g.size src.domain src.cluster
  let c := g.C src.domain
  if (dst.cluster = 0 ∧ dst.node = 0) ∨ src.domain ≠ dst.domain then
    ndIndex src.node dst.domain size c g.D
  else if dst.node = 0 ∨ src.cluster ≠ dst.cluster then ncIndex src.node dst.cluster size c g.D
  else nnIndex src.node dst.node size c g.D

/-- The check of the range of an address, that does nothing in the end, reads `C` and `cluster_size`
where they have elements. -/
def Checkable (g : HierShape) (src dst : HierAddr) : Prop :=
  (src.cluster < g.C src.domain ∨ dst.domain < g.D) ∧
    (src.cluster < g.C src.domain ∨ dst.cluster < g.C dst.domain →
      src.node ≤ g.size src.domain src.cluster ∨ index dst.domain dst.cluster g.Cmax < g.arrSize)

instance (g : HierShape) (src dst : HierAddr) : Decidable (g.Checkable src dst) := by
  unfold Checkable
  infer_instance

/-- Inserting a link gives the cluster `i` its tables, if it has none. -/
def Allocates (g : HierShape) (a b : HierAddr) (i : ℕ) : Prop :=
  if a.domain = b.domain then
    if a.cluster = b.cluster then i = index a.domain a.cluster g.Cmax
    else ∃ y ∈ nodes (g.C a.domain), i = index a.domain y g.Cmax
  else ∃ x ∈ nodes g.D, ∃ y ∈ nodes (g.C x), i = index x y g.Cmax

end HierShape

namespace RouteTables

open HierShape EntryLogic

variable {K E : Type*} [LinearOrder K] [Add K] [NatCast K] [Zero E]

/-- The tables once the numbers of a network, if any, are sent. -/
def start (N : Option Network) : RouteTables K E :=
  ⟨EntryLogic.init, .null, 0, N.map Network.start, fun _ => 0⟩

/-- The element of `route`, if it has one there, and the answers for the errors. -/
def readRoute (notComputed outOfRange : RouteAnswer) (src dst : ℕ) (s : RouteTables K E) :
    RouteAnswer :=
  match s.flat.route with
  | none => notComputed
  | some route =>
    if s.flat.size ≤ src ∨ s.flat.size ≤ dst then outOfRange
    else if index src dst s.flat.size < s.side * s.side then
      .nextHop (route (index src dst s.flat.size) - 1)
    else .outside

def lookupFlat (src dst : ℕ) (s : RouteTables K E) : RouteAnswer :=
  s.readRoute (.error "routes not yet computed") (.error "node out of range") src dst

/-- The form for numbers, whose errors are numbers. -/
def lookupNumber (src dst : ℕ) (s : RouteTables K E) : RouteAnswer :=
  s.readRoute (.nextHop (-1)) (.nextHop (-2)) src dst

def lookupHier (src dst : HierAddr) (s : RouteTables K E) : RouteAnswer :=
  match s.hier with
  | none => .error "Required Hier_data not sent"
  | some h =>
    let i := index src.domain src.cluster h.Cmax
    if ¬src.Positive then .error "negative src node number"
    else if dst.domain = 0 then .error "negative dst domain number"
    -- `cluster_size` and `hsize` are read before any check
    else if h.arrSize ≤ i then .outside
    else if (h.tables i).isNone then .error "Routes not computed"
    else if h.D ≤ src.domain ∧ h.D ≤ dst.domain then .error "node out of range"
    else if h.Checkable src dst ∧ h.cell src dst < s.hierSide i * s.hierSide i then
      .hier (h.lookupHier src dst)
    else .outside

def lookup (s : RouteTables K E) : Lookup → RouteAnswer
  | .flat src dst => s.lookupFlat src dst
  | .number src dst => s.lookupNumber src dst
  | .hier src dst => s.lookupHier src dst

/-- Every cluster gets its table by way of `route`, and `adj` is deleted after it. -/
def hierCompute (hopcnt : ℕ → ℤ) (s : RouteTables K E) : Option (RouteTables K E) :=
  match s.hier with
  | none => some s
  | some h => (h.hierCompute hopcnt).map fun h' =>
    let s := { s with hier := some h', hierSide := h.computeSides s.hierSide }
    match h.lastCluster with
    | none => s
    | some (j, k) =>
      { s with
        flat := { s.flat with
          route := (h'.tables (index j k h.Cmax)).map HierTables.hroute, routeEntry := fun _ => 0 }
        side := h.rows j k
        adj := .freed }

/-- A command; `none` is for one that uses memory it may not, or fails an assertion. -/
def act (s : RouteTables K E) : RouteCmd K → Option (RouteTables K E × RouteAnswer)
  | .insert src dst cost =>
    if src = 0 ∨ dst = 0 then some (s, .error "negative node number")
    else if s.adj = .freed then none
    else (s.flat.insert src dst cost).map fun t => ({ s with flat := t, adj := .live }, .ok)
  | .reset src dst =>
    if src = 0 ∨ dst = 0 then some (s, .error "negative node number")
    else if s.adj = .freed ∨ s.flat.size ≤ src ∨ s.flat.size ≤ dst then none
    else some ({ s with flat := { s.flat with
      adj := Function.update s.flat.adj (index src dst s.flat.size) (infinity K) } }, .ok)
  | .resetAll =>
    if s.adj = .freed then none
    else some ({ s with flat := EntryLogic.init, adj := .null, side := 0 }, .ok)
  | .compute hopcnt =>
    match s.adj with
    | .null => some (s, .ok)
    | .live => some ({ s with flat := s.flat.computeRoutes hopcnt, side := s.flat.size }, .ok)
    -- without rows no cost is read
    | .freed =>
      if s.flat.size = 0 then
        some ({ s with flat := s.flat.computeRoutes hopcnt, side := s.flat.size }, .ok)
      else none
  | .hierInsert src dst cost =>
    match s.hier with
    | none => some (s, .error "Required Hier_data not sent")
    | some h =>
      if h.Cmax = 0 ∨ h.D = 0 then some (s, .error "Required Hier_data not sent")
      else if ¬(src.Positive ∧ dst.Positive) then some (s, .error "negative node number")
      else if h.Writable src dst then
        some ({ s with hier := some (h.hierInsert src dst cost) }, .ok)
      else none
  | .hierCompute hopcnt => (s.hierCompute hopcnt).map fun t => (t, .ok)
  | .lookup q => some (s, s.lookup q)

def machine (K E : Type*) [LinearOrder K] [Add K] [NatCast K] [Zero E] :
    Machine (RouteTables K E) (RouteCmd K) RouteAnswer := ⟨act⟩

end RouteTables

/-- What the commands so far come to. `rows` is the length of the rows of the costs, `held` that
`adj` is not null, `table` the length of the rows of the last table that was computed, `links` what
was inserted between addresses. -/
structure RouteHistory where
  rows : ℕ
  held : Bool
  table : Option ℕ
  links : List (HierAddr × HierAddr)
  routed : Bool

namespace RouteHistory

open EntryLogic

variable {K : Type*}

def start : RouteHistory := ⟨0, false, none, [], false⟩

/-- A link between addresses is inserted. -/
def Inserts (g : Option HierShape) (a b : HierAddr) : Prop :=
  ∃ h ∈ g, h.Cmax ≠ 0 ∧ h.D ≠ 0 ∧ a.Positive ∧ b.Positive

instance (g : Option HierShape) (a b : HierAddr) : Decidable (Inserts g a b) := by
  unfold Inserts
  infer_instance

def after (g : Option HierShape) (h : RouteHistory) : RouteCmd K → RouteHistory
  | .insert src dst _ =>
    if src = 0 ∨ dst = 0 then h
    else { h with rows := max h.rows (room (max src dst)), held := true }
  | .resetAll => { h with rows := 0, held := false, table := none }
  | .compute _ => if h.held then { h with table := some h.rows } else h
  | .hierInsert a b _ => if Inserts g a b then { h with links := h.links ++ [(a, b)] } else h
  | .hierCompute _ =>
    match g.bind HierShape.lastCluster with
    | none => h
    | some (j, k) => { h with held := true, table := g.map fun g => g.rows j k, routed := true }
  | _ => h

def of (g : Option HierShape) (cmds : List (RouteCmd K)) : RouteHistory := cmds.foldl (after g) start

/-- The element is in the table, as far as its place goes by the rows of the costs. -/
def FlatSafe (h : RouteHistory) (src dst : ℕ) : Prop :=
  ∀ n, h.table = some n → src < h.rows → dst < h.rows → index src dst h.rows < n * n

/-- The source is in the arrays. If its cluster has tables then they are computed, the cell is one of
them and the check of the range stays in the arrays. -/
def HierSafe (g : HierShape) (h : RouteHistory) (src dst : HierAddr) : Prop :=
  src.Positive → 0 < dst.domain →
    let i := index src.domain src.cluster g.Cmax
    i < g.arrSize ∧
      ((∃ l ∈ h.links, g.Allocates l.1 l.2 i) → h.routed ∧ g.Checkable src dst ∧
        g.cell src dst < g.rows (i / g.Cmax) (i % g.Cmax) * g.rows (i / g.Cmax) (i % g.Cmax))

/-- The lookup finds an error, or an element of the table. -/
def Safe (g : Option HierShape) (h : RouteHistory) : Lookup → Prop
  | .flat src dst => h.FlatSafe src dst
  | .number src dst => h.FlatSafe src dst
  | .hier src dst => ∀ g' ∈ g, HierSafe g' h src dst

end RouteHistory

namespace HierLogic

open HierTables HierShape
open RouteScan (nodes mem_nodes)

variable {s s' : HierLogic} {g : HierShape} {i j x y : ℕ} {a b : HierAddr} {cost : ℤ}
  {hopcnt : ℕ → ℤ} {f : HierTables → HierTables}
variable {l : List ℕ}

theorem write_isSome : ((s.write i f).tables j).isSome = (s.tables j).isSome := by
  rw [write_tables]
  split_ifs with hj
  · rw [hj, Option.isSome_map]
  · rfl

theorem hierCheck_isSome : ((s.hierCheck i).tables j).isSome ↔ (s.tables j).isSome ∨ j = i := by
  rw [hierCheck_tables]
  split_ifs with hj
  · simp [hj]
  · simp [hj]

theorem isSome_foldl {F : HierLogic → ℕ → HierLogic} {Q : ℕ → Prop}
    (hstep : ∀ s, ∀ y ∈ l, s.toHierShape = g → (F s y).toHierShape = g ∧
      (((F s y).tables i).isSome ↔ (s.tables i).isSome ∨ Q y)) (hs : s.toHierShape = g) :
    (l.foldl F s).toHierShape = g ∧
      (((l.foldl F s).tables i).isSome ↔ (s.tables i).isSome ∨ ∃ y ∈ l, Q y) := by
  induction l generalizing s with
  | nil => exact ⟨hs, by simp⟩
  | cons y l ih =>
    obtain ⟨hshape, hsome⟩ := hstep s y List.mem_cons_self hs
    obtain ⟨hshape', hsome'⟩ := ih (fun s z hz => hstep s z (List.mem_cons_of_mem y hz)) hshape
    refine ⟨hshape', ?_⟩
    rw [List.foldl_cons, hsome', hsome, List.exists_mem_cons_iff, or_assoc]

section

variable (hs : s.toHierShape = g)
include hs

theorem insertCluster_isSome : ((insertCluster a b cost s y).tables i).isSome ↔
      (s.tables i).isSome ∨ i = index a.domain y g.Cmax := by
  subst hs
  unfold insertCluster
  dsimp only
  split_ifs
  · rw [write_isSome, write_isSome, write_isSome, hierCheck_isSome]
  · rw [write_isSome, hierCheck_isSome]

theorem insertDomain_isSome : ((insertDomain a b cost x s y).tables i).isSome ↔
      (s.tables i).isSome ∨ i = index x y g.Cmax := by
  subst hs
  unfold insertDomain
  dsimp only
  rw [write_isSome, hierCheck_isSome]

theorem insertBorder_isSome : ((insertBorder a b cost s y).tables i).isSome ↔
      (s.tables i).isSome ∨ i = index a.domain y g.Cmax := by
  subst hs
  unfold insertBorder
  dsimp only
  rw [write_isSome, hierCheck_isSome]

theorem hierInsert_isSome (ha : 0 < a.domain ∧ a.domain < g.D) :
    (hierInsert a b cost s).toHierShape = g ∧
      (((hierInsert a b cost s).tables i).isSome ↔ (s.tables i).isSome ∨ g.Allocates a b i) := by
  unfold hierInsert Allocates
  by_cases hab : a.domain = b.domain
  · by_cases hcl : a.cluster = b.cluster
    · simp only [if_pos hab, if_pos hcl, write_shape, hierCheck_shape, write_isSome,
        hierCheck_isSome]
      exact ⟨hs, by rw [hs]⟩
    · simp only [if_pos hab, if_neg hcl]
      rw [show s.C = g.C from hs ▸ rfl]
      exact isSome_foldl (fun s y _ h => ⟨insertCluster_shape.trans h, insertCluster_isSome h⟩) hs
  · simp only [if_neg hab]
    have hdomains := isSome_foldl (g := g) (i := i)
      (F := fun s x => (nodes (s.C x)).foldl (insertDomain a b cost x) s)
      (Q := fun x => ∃ y ∈ nodes (g.C x), i = index x y g.Cmax) (l := nodes g.D) (fun s x _ h => by
        rw [show s.C = g.C from h ▸ rfl]
        exact isSome_foldl (fun s y _ h =>
          ⟨by simpa [insertDomain] using h, insertDomain_isSome h⟩) h) hs
    rw [show s.D = g.D from hs ▸ rfl]
    generalize (nodes g.D).foldl (fun s x => (nodes (s.C x)).foldl (insertDomain a b cost x) s) s
      = s₁ at hdomains ⊢
    obtain ⟨hs₁, hsome₁⟩ := hdomains
    have hborders := isSome_foldl (g := g) (i := i) (F := insertBorder a b cost)
      (Q := fun y => i = index a.domain y g.Cmax) (l := nodes (g.C a.domain)) (fun s y _ h =>
        ⟨by simpa [insertBorder] using h, insertBorder_isSome h⟩) hs₁
    rw [show s₁.C = g.C from hs₁ ▸ rfl]
    obtain ⟨hs₂, hsome₂⟩ := hborders
    refine ⟨by simpa using hs₂, ?_⟩
    rw [write_isSome, write_isSome, hsome₂, hsome₁]
    refine or_iff_left_of_imp ?_
    rintro ⟨y, hy, rfl⟩
    exact Or.inr ⟨a.domain, mem_nodes.2 ha, y, hy, rfl⟩

end

theorem hierComputeRoutes_isSome (h : hierComputeRoutes hopcnt x s y = some s') :
    s'.toHierShape = s.toHierShape ∧ (s.tables (index x y s.Cmax)).isSome ∧
      ∀ i, (s'.tables i).isSome = (s.tables i).isSome := by
  obtain ⟨t, ht, rfl⟩ := Option.map_eq_some_iff.1 h
  refine ⟨rfl, by rw [ht]; rfl, fun i => ?_⟩
  dsimp only
  rw [Function.update_apply]
  split_ifs with hi
  · rw [hi, ht]
    rfl
  · rfl

theorem foldlM_hierComputeRoutes_isSome (h : l.foldlM (hierComputeRoutes hopcnt x) s = some s') :
    s'.toHierShape = s.toHierShape ∧ ∀ i, (s'.tables i).isSome = (s.tables i).isSome := by
  refine foldlM_keeps (Q := fun t => t.toHierShape = s.toHierShape ∧
    ∀ i, (t.tables i).isSome = (s.tables i).isSome) (fun k t t' ht hkeep => ?_) h
    ⟨rfl, fun _ => rfl⟩
  obtain ⟨hshape, -, hsome⟩ := hierComputeRoutes_isSome ht
  exact ⟨hshape.trans hkeep.1, fun i => (hsome i).trans (hkeep.2 i)⟩

theorem hierCompute_isSome (h : hierCompute hopcnt s = some s') :
    s'.toHierShape = s.toHierShape ∧ ∀ i, (s'.tables i).isSome = (s.tables i).isSome := by
  refine foldlM_keeps (Q := fun t => t.toHierShape = s.toHierShape ∧
    ∀ i, (t.tables i).isSome = (s.tables i).isSome) (fun j t t' ht hkeep => ?_) h
    ⟨rfl, fun _ => rfl⟩
  obtain ⟨hshape, hsome⟩ := foldlM_hierComputeRoutes_isSome ht
  exact ⟨hshape.trans hkeep.1, fun i => (hsome i).trans (hkeep.2 i)⟩

theorem isSome_of_hierCompute (hc : s.HasCluster x y) (h : hierCompute hopcnt s = some s') :
    (s.tables (index x y s.Cmax)).isSome := by
  obtain ⟨hshape', hsome'⟩ := hierCompute_isSome h
  rw [← hsome']
  -- the shape of a state on the way is that of the one after it
  refine foldlM_of_mem (Q := fun t => t.toHierShape = s.toHierShape →
    (t.tables (index x y s.Cmax)).isSome) (mem_nodes.2 hc.domain) (fun t t' ht hs => ?_)
    (fun j t t' ht hkeep hs => ?_) h hshape'
  · obtain ⟨hshape, hsome⟩ := foldlM_hierComputeRoutes_isSome ht
    have hst : t.toHierShape = s.toHierShape := hshape.symm.trans hs
    have hy : y ∈ nodes (t.C x) := by
      rw [mem_nodes, show t.C = s.C from hst ▸ rfl]
      exact hc.cluster
    refine foldlM_of_mem (Q := fun t => t.toHierShape = s.toHierShape →
      (t.tables (index x y s.Cmax)).isSome) hy (fun u u' hu hs => ?_) (fun k u u' hu hkeep hs => ?_)
      ht hs
    · obtain ⟨hshape, hown, hsome⟩ := hierComputeRoutes_isSome hu
      rw [show u.Cmax = s.Cmax from (hshape.symm.trans hs) ▸ rfl] at hown
      rwa [hsome]
    · obtain ⟨hshape, -, hsome⟩ := hierComputeRoutes_isSome hu
      rw [hsome]
      exact hkeep (hshape.symm.trans hs)
  · obtain ⟨hshape, hsome⟩ := foldlM_hierComputeRoutes_isSome ht
    rw [hsome]
    exact hkeep (hshape.symm.trans hs)

end HierLogic

namespace HierShape

open RouteScan (nodes mem_nodes)

variable {g : HierShape} {i j k x y : ℕ}

theorem lastCluster_some (h : g.lastCluster = some (j, k)) : g.HasCluster j k := by
  have hmem := List.mem_of_getLast? h
  simp only [List.mem_flatMap, List.mem_map, Prod.mk.injEq] at hmem
  obtain ⟨j', hj, k', hk, rfl, rfl⟩ := hmem
  exact ⟨mem_nodes.1 hj, mem_nodes.1 hk⟩

theorem lastCluster_none (h : g.lastCluster = none) : ¬g.HasCluster x y := by
  intro hc
  have hnil := List.getLast?_eq_none_iff.1 h
  have hmem : (x, y) ∈ (nodes g.D).flatMap fun j => (nodes (g.C j)).map fun k => (j, k) := by
    simp only [List.mem_flatMap, List.mem_map, Prod.mk.injEq]
    exact ⟨x, mem_nodes.2 hc.domain, y, mem_nodes.2 hc.cluster, rfl, rfl⟩
  rw [hnil] at hmem
  cases hmem

theorem index_div_mod (i n : ℕ) : index (i / n) (i % n) n = i := Nat.div_add_mod i n

theorem HasCluster.div_mod (h : g.HasCluster x y) (hg : g.Fits) :
    index x y g.Cmax / g.Cmax = x ∧ index x y g.Cmax % g.Cmax = y := by
  have hlt := h.lt hg
  unfold index
  constructor
  · rw [Nat.mul_add_div (by omega), Nat.div_eq_of_lt hlt, Nat.add_zero]
  · rw [Nat.mul_add_mod, Nat.mod_eq_of_lt hlt]

theorem computeSides_of_hasCluster (hg : g.Fits) (hc : g.HasCluster (i / g.Cmax) (i % g.Cmax))
    (side : ℕ → ℕ) : g.computeSides side i = g.rows (i / g.Cmax) (i % g.Cmax) := by
  have hrows := HierLogic.foldl_rows (n := g.rows) (C := g.C) (f := side) (m := g.Cmax)
    (l := nodes g.D) (fun x hx => hg x (mem_nodes.1 hx).1 (mem_nodes.1 hx).2) (hc.lt hg)
    (x := i / g.Cmax)
  rw [if_pos ⟨mem_nodes.2 hc.domain, mem_nodes.2 hc.cluster⟩, index_div_mod] at hrows
  exact hrows

theorem Writable.hasCluster {a b : HierAddr} (h : g.Writable a b) (hg : g.Fits) (ha : 0 < a.domain)
    (hi : g.Allocates a b i) : g.HasCluster (i / g.Cmax) (i % g.Cmax) := by
  have hcluster : ∀ {x y}, g.HasCluster x y → i = index x y g.Cmax →
      g.HasCluster (i / g.Cmax) (i % g.Cmax) := by
    rintro x y hc rfl
    obtain ⟨hdiv, hmod⟩ := hc.div_mod hg
    rwa [hdiv, hmod]
  obtain ⟨hD, h⟩ := h
  unfold Allocates at hi
  split_ifs at h hi with hab hcl
  · rw [hi]
    exact h.1
  · obtain ⟨y, hy, rfl⟩ := hi
    exact hcluster ⟨⟨ha, hD⟩, mem_nodes.1 hy⟩ rfl
  · obtain ⟨x, hx, y, hy, rfl⟩ := hi
    exact hcluster ⟨mem_nodes.1 hx, mem_nodes.1 hy⟩ rfl

end HierShape

namespace RouteTables

open HierShape EntryLogic

variable {t : HierLogic} {links : List (HierAddr × HierAddr)} {routed : Bool} {side : ℕ → ℕ}

/-- The shape of the tables that are sent. -/
def shape (N : Option Network) : Option HierShape := N.map fun N => N.start.toHierShape

/-- The hierarchical part is as the links that were inserted say. -/
structure HierFollows (links : List (HierAddr × HierAddr)) (routed : Bool) (side : ℕ → ℕ)
    (g : HierShape) (s : HierLogic) : Prop where
  shape : s.toHierShape = g
  fits : g.Fits
  tables : ∀ i, (s.tables i).isSome ↔ ∃ l ∈ links, g.Allocates l.1 l.2 i
  own : ∀ i, (s.tables i).isSome → g.HasCluster (i / g.Cmax) (i % g.Cmax)
  side : ∀ i, g.HasCluster (i / g.Cmax) (i % g.Cmax) →
    side i = if routed then g.rows (i / g.Cmax) (i % g.Cmax) else 0

variable {K E : Type*} {g : Option HierShape} {h : RouteHistory} {s s' : RouteTables K E}
  {src dst : ℕ}

/-- The lengths of the arrays are as the commands so far say. -/
structure Follows (g : Option HierShape) (h : RouteHistory) (s : RouteTables K E) : Prop where
  size : s.flat.size = h.rows
  sized : ∃ M < 32768, s.flat.Sized M
  held : s.adj = .null ↔ ¬h.held
  table : h.table = s.flat.route.map fun _ => s.side
  hier : Option.Rel (HierFollows h.links h.routed s.hierSide) g s.hier

theorem room_max (a b : ℕ) : room (max a b) = max (room a) (room b) :=
  Monotone.map_max (f := room) fun _ _ => le_room

theorem HierFollows.insert {g : HierShape} {a b : HierAddr} (hf : HierFollows links routed side g t)
    (ha : a.Positive) (hw : g.Writable a b) (cost : ℤ) :
    HierFollows (links ++ [(a, b)]) routed side g (t.hierInsert a b cost) := by
  have hinsert (i : ℕ) : (t.hierInsert a b cost).toHierShape = g ∧
      (((t.hierInsert a b cost).tables i).isSome ↔ (t.tables i).isSome ∨ g.Allocates a b i) :=
    HierLogic.hierInsert_isSome hf.shape ⟨ha.1, hw.1⟩
  refine ⟨(hinsert 0).1, hf.fits, fun i => ?_, fun i hi => ?_, hf.side⟩
  · rw [(hinsert i).2, hf.tables]
    simp only [List.mem_append, List.mem_singleton, or_and_right, exists_or, exists_eq_left]
  · rcases (hinsert i).2.1 hi with hold | hnew
    · exact hf.own i hold
    · exact hw.hasCluster hf.fits ha.1 hnew

theorem HierFollows.compute {g : HierShape} {t' : HierLogic} {hopcnt : ℕ → ℤ}
    (hf : HierFollows links routed side g t) (ht : t.hierCompute hopcnt = some t') :
    HierFollows links true (g.computeSides side) g t' := by
  obtain ⟨hshape, hsome⟩ := HierLogic.hierCompute_isSome ht
  refine ⟨hshape.trans hf.shape, hf.fits, fun i => ?_, fun i hi => ?_, fun i hi => ?_⟩
  · rw [hsome, hf.tables]
  · exact hf.own i (by rwa [← hsome])
  · exact computeSides_of_hasCluster hf.fits hi side

theorem Follows.hierCompute [Zero E] (hf : Follows g h s) {hopcnt : ℕ → ℤ}
    (ht : s.hierCompute hopcnt = some s') :
    Follows g (h.after g (.hierCompute hopcnt : RouteCmd K)) s' := by
  have hier := hf.hier
  unfold RouteTables.hierCompute at ht
  rw [RouteHistory.after]
  generalize hs : s.hier = t at hier ht
  cases hier with
  | none =>
    obtain rfl := Option.some.inj ht
    exact hf
  | @some g' t hfollows =>
    obtain ⟨t', ht', rfl⟩ := Option.map_eq_some_iff.1 ht
    have hfollows' := hfollows.compute ht'
    have hshape := hfollows.shape
    subst hshape
    dsimp only [Option.bind_some]
    cases hlast : t.lastCluster with
    | none =>
      -- without clusters nothing is computed
      refine ⟨hf.size, hf.sized, hf.held, hf.table, Option.Rel.some ⟨hfollows'.shape,
        hfollows'.fits, hfollows'.tables, hfollows'.own, fun i hi => ?_⟩⟩
      exact absurd hi (lastCluster_none hlast)
    | some c =>
      obtain ⟨j, k⟩ := c
      have hc := lastCluster_some hlast
      have hsome := HierLogic.isSome_of_hierCompute hc ht'
      rw [← (HierLogic.hierCompute_isSome ht').2] at hsome
      obtain ⟨a, ha⟩ := Option.isSome_iff_exists.1 hsome
      refine ⟨hf.size, hf.sized, iff_of_false (by simp) (by simp), ?_, Option.Rel.some hfollows'⟩
      dsimp only
      rw [ha]
      rfl

theorem Follows.flatSafe_iff (hf : Follows g h s) : h.FlatSafe src dst ↔
    ∀ route, s.flat.route = some route → src < s.flat.size → dst < s.flat.size →
      index src dst s.flat.size < s.side * s.side := by
  unfold RouteHistory.FlatSafe
  rw [hf.table, hf.size]
  cases s.flat.route with
  | none => simp
  | some route => simp

theorem Follows.readRoute (hf : Follows g h s) {notComputed outOfRange : RouteAnswer}
    (hnot : notComputed ≠ .outside) (hrange : outOfRange ≠ .outside) :
    s.readRoute notComputed outOfRange src dst ≠ .outside ↔ h.FlatSafe src dst := by
  rw [hf.flatSafe_iff]
  unfold RouteTables.readRoute
  cases s.flat.route with
  | none => simp [hnot]
  | some route =>
    dsimp only
    split_ifs with hout hcell
    · exact iff_of_true hrange fun _ _ hsrc hdst => by omega
    · exact iff_of_true (by simp) fun _ _ _ _ => hcell
    · refine iff_of_false (by simp) fun hall => hcell (hall route rfl ?_ ?_) <;> omega

theorem domain_lt_of_index {g : HierShape} {x y : ℕ} (h : index x y g.Cmax < g.arrSize) :
    x < g.D := by
  unfold index HierShape.arrSize at h
  by_contra hge
  have hmul := Nat.mul_le_mul_left g.Cmax (not_lt.1 hge)
  omega

theorem Follows.lookupHier (hf : Follows g h s) (src dst : HierAddr) :
    s.lookupHier src dst ≠ .outside ↔ ∀ g' ∈ g, h.HierSafe g' src dst := by
  have hier := hf.hier
  unfold RouteTables.lookupHier
  generalize s.hier = t at hier
  cases hier with
  | none => simp
  | @some g' t hfollows =>
    have hshape := hfollows.shape
    subst hshape
    have htables := hfollows.tables (index src.domain src.cluster t.Cmax)
    simp only [Option.mem_some_iff, forall_eq']
    unfold RouteHistory.HierSafe
    dsimp only
    by_cases hpos : src.Positive
    · rw [if_neg (not_not.2 hpos)]
      by_cases hdst : dst.domain = 0
      · rw [if_pos hdst]
        exact iff_of_true (by simp) fun _ h0 => by omega
      · rw [if_neg hdst]
        have hdst' : 0 < dst.domain := Nat.pos_of_ne_zero hdst
        simp only [hpos, hdst', forall_const]
        by_cases harr : t.arrSize ≤ index src.domain src.cluster t.Cmax
        · rw [if_pos harr]
          exact iff_of_false (by simp) fun hsafe => absurd hsafe.1 (by omega)
        · rw [if_neg harr, ← htables, and_iff_right (not_le.1 harr)]
          cases ht : t.tables (index src.domain src.cluster t.Cmax) with
          | none => simp
          | some tables =>
            have hc := hfollows.own _ (by rw [ht]; rfl)
            have hlt := domain_lt_of_index (not_le.1 harr)
            rw [hfollows.side _ hc, if_neg (by simp), if_neg (by omega)]
            cases h.routed with
            | false => simp
            | true => simp
    · rw [if_pos hpos]
      exact iff_of_true (by simp) fun h => absurd h hpos

theorem Follows.lookup (hf : Follows g h s) (q : Lookup) :
    s.lookup q ≠ .outside ↔ h.Safe g q := by
  cases q with
  | flat src dst => exact hf.readRoute (by simp) (by simp)
  | number src dst => exact hf.readRoute (by simp) (by simp)
  | hier src dst => exact hf.lookupHier src dst

variable [NatCast K] [Zero E]

theorem follows_start (N : Option Network) :
    Follows (K := K) (E := E) (shape N) .start (start N) := by
  refine ⟨rfl, ⟨0, by decide, Or.inl ⟨rfl, rfl⟩⟩, ?_, rfl, ?_⟩
  · exact iff_of_true rfl Bool.false_ne_true
  · cases N with
    | none => exact Option.Rel.none
    | some N =>
      refine Option.Rel.some ⟨rfl, Network.start_fits, fun i => ?_, fun i hi => ?_, fun i _ => rfl⟩
      · exact iff_of_false Bool.false_ne_true fun hl => by simp [RouteHistory.start] at hl
      · exact absurd hi Bool.false_ne_true

theorem check_route {n : ℕ} {a t : EntryLogic K E} (ht : a.check n = some t) :
    t.route = a.route := by
  unfold EntryLogic.check at ht
  by_cases hn : n < a.size
  · rw [if_pos hn] at ht
    rw [Option.some.inj ht]
  · rw [if_neg hn] at ht
    obtain ⟨t₁, h₁, rfl⟩ := Option.map_eq_some_iff.1 ht
    obtain ⟨t₂, h₂, rfl⟩ := Option.map_eq_some_iff.1 h₁
    unfold RouteLogic.alloc at h₂
    obtain ⟨-, heq⟩ := Option.ite_none_right_eq_some.1 h₂
    rw [← Option.some.inj heq]

variable {c : RouteCmd K} {r : RouteAnswer} {q : Lookup} {cost : K}

/-- The matrix grows to the size for the nodes of the link, and the table of routes stays. -/
theorem Follows.insert (hf : Follows g h s) {t : EntryLogic K E}
    (ht : s.flat.insert src dst cost = some t) :
    t.size = max h.rows (room (max src dst)) ∧ (∃ M < 32768, t.Sized M) ∧
      t.route = s.flat.route := by
  obtain ⟨M, hM, hsized⟩ := hf.sized
  have hnode : max src dst < 32768 := by
    by_contra hlarge
    have hnone := hsized.apply_none hM (o := .insert src dst cost) (not_lt.1 hlarge)
    exact Option.some_ne_none t (ht.symm.trans hnone)
  obtain ⟨t', ht', hsize, -⟩ := hsized.apply hM (o := .insert src dst cost) hnode
  obtain rfl := Option.some.inj (ht.symm.trans ht')
  refine ⟨?_, ⟨max M (max src dst), max_lt hM hnode, Or.inr hsize⟩, ?_⟩
  · rw [hsize, ← hf.size]
    rcases hsized with ⟨hzero, rfl⟩ | hroom
    · rw [hzero, Nat.zero_max, Nat.zero_max]
      rfl
    · rw [hroom]
      exact room_max M (max src dst)
  · obtain ⟨t₁, h₁, ht⟩ := Option.bind_eq_some_iff.1 ht
    obtain ⟨t₂, h₂, ht⟩ := Option.bind_eq_some_iff.1 ht
    obtain rfl := Option.some.inj ht
    exact (check_route h₂).trans (check_route h₁)

variable [LinearOrder K] [Add K]

section

variable (hf : Follows g h s)
include hf

theorem Follows.compute (hopcnt : ℕ → K) :
    Follows g { h with table := some h.rows }
      { s with flat := s.flat.computeRoutes hopcnt, side := s.flat.size } := by
  refine ⟨hf.size, hf.sized, hf.held, ?_, hf.hier⟩
  rw [hf.size]
  rfl


theorem Follows.step (hact : s.act c = some (s', r)) :
    Follows g (h.after g c) s' := by
  cases c with
  | insert src dst cost =>
    simp only [act] at hact
    rw [RouteHistory.after]
    split_ifs at hact ⊢ with hzero hfreed
    · obtain ⟨rfl, -⟩ := Prod.mk.inj (Option.some.inj hact)
      exact hf
    · obtain ⟨t, ht, heq⟩ := Option.map_eq_some_iff.1 hact
      obtain ⟨rfl, -⟩ := Prod.mk.inj heq
      obtain ⟨hsize, hsized, hroute⟩ := hf.insert ht
      refine ⟨hsize, hsized, iff_of_false (by simp) (by simp), ?_, hf.hier⟩
      exact hf.table.trans (by rw [hroute])
  | reset src dst =>
    simp only [act] at hact
    split_ifs at hact with hzero hbad
    · obtain ⟨rfl, -⟩ := Prod.mk.inj (Option.some.inj hact)
      exact hf
    · obtain ⟨rfl, -⟩ := Prod.mk.inj (Option.some.inj hact)
      exact ⟨hf.size, hf.sized, hf.held, hf.table, hf.hier⟩
  | resetAll =>
    simp only [act] at hact
    split_ifs at hact with hfreed
    obtain ⟨rfl, -⟩ := Prod.mk.inj (Option.some.inj hact)
    refine ⟨rfl, ⟨0, by decide, Or.inl ⟨rfl, rfl⟩⟩, iff_of_true rfl Bool.false_ne_true, rfl, hf.hier⟩
  | compute hopcnt =>
    simp only [act] at hact
    rw [RouteHistory.after]
    cases hadj : s.adj with
    | null =>
      rw [hadj] at hact
      obtain ⟨rfl, -⟩ := Prod.mk.inj (Option.some.inj hact)
      rw [if_neg (hf.held.1 hadj)]
      exact hf
    | live =>
      have hheld : h.held := by_contra fun hno => by rw [hf.held.2 hno] at hadj; cases hadj
      rw [hadj] at hact
      obtain ⟨rfl, -⟩ := Prod.mk.inj (Option.some.inj hact)
      have hnext := hf.compute hopcnt
      rw [hadj] at hnext
      rwa [if_pos hheld]
    | freed =>
      have hheld : h.held := by_contra fun hno => by rw [hf.held.2 hno] at hadj; cases hadj
      rw [hadj] at hact
      dsimp only at hact
      split_ifs at hact
      obtain ⟨rfl, -⟩ := Prod.mk.inj (Option.some.inj hact)
      have hnext := hf.compute hopcnt
      rw [hadj] at hnext
      rwa [if_pos hheld]
  | hierInsert a b cost =>
    have hier := hf.hier
    simp only [act] at hact
    rw [RouteHistory.after]
    generalize hs : s.hier = t at hier hact
    cases hier with
    | none =>
      obtain ⟨rfl, -⟩ := Prod.mk.inj (Option.some.inj hact)
      rw [if_neg (by simp [RouteHistory.Inserts])]
      exact hf
    | @some g' t hfollows =>
      have hshape := hfollows.shape
      subst hshape
      simp only [RouteHistory.Inserts, Option.mem_some_iff, exists_eq_left']
      dsimp only at hact
      by_cases hsent : t.Cmax = 0 ∨ t.D = 0
      · rw [if_pos hsent] at hact
        obtain ⟨rfl, -⟩ := Prod.mk.inj (Option.some.inj hact)
        rw [if_neg fun hins => hsent.elim hins.1 hins.2.1]
        exact hf
      · rw [if_neg hsent] at hact
        by_cases hpos : a.Positive ∧ b.Positive
        · rw [if_neg (not_not.2 hpos)] at hact
          split_ifs at hact with hw
          obtain ⟨rfl, -⟩ := Prod.mk.inj (Option.some.inj hact)
          rw [if_pos ⟨fun hC => hsent (Or.inl hC), fun hD => hsent (Or.inr hD), hpos⟩]
          exact ⟨hf.size, hf.sized, hf.held, hf.table,
            Option.Rel.some (hfollows.insert hpos.1 hw cost)⟩
        · rw [if_pos hpos] at hact
          obtain ⟨rfl, -⟩ := Prod.mk.inj (Option.some.inj hact)
          rw [if_neg fun hins => hpos hins.2.2]
          exact hf
  | hierCompute hopcnt =>
    obtain ⟨t, ht, heq⟩ := Option.map_eq_some_iff.1 hact
    obtain ⟨rfl, -⟩ := Prod.mk.inj heq
    exact hf.hierCompute ht
  | lookup q =>
    obtain ⟨rfl, -⟩ := Prod.mk.inj (Option.some.inj hact)
    exact hf

theorem Follows.run {cmds : List (RouteCmd K)} {rs : List RouteAnswer}
    (hrun : (machine K E).run s cmds = some (s', rs)) :
    Follows g (cmds.foldl (RouteHistory.after g) h) s' := by
  induction cmds generalizing s h rs with
  | nil =>
    obtain ⟨rfl, -⟩ := Prod.mk.inj (Option.some.inj hrun)
    exact hf
  | cons c cmds ih =>
    obtain ⟨⟨s₁, r⟩, hstep, hrun⟩ := Option.bind_eq_some_iff.1 hrun
    obtain ⟨⟨s₂, rs'⟩, hrest, heq⟩ := Option.map_eq_some_iff.1 hrun
    obtain ⟨rfl, -⟩ := Prod.mk.inj heq
    exact ih (hf.step hstep) hrest

end

/-- A lookup reads an element of the table, or finds an error, exactly when the numbers do by what
the commands before it have come to. -/
theorem inside_iff_safe {N : Option Network} {cmds : List (RouteCmd K)} {rs : List RouteAnswer}
    (hrun : (machine K E).run (start N) cmds = some (s, rs)) (q : Lookup) :
    s.lookup q ≠ .outside ↔ (RouteHistory.of (shape N) cmds).Safe (shape N) q :=
  ((follows_start N).run hrun).lookup q

/-- Two clusters of a node. -/
def twoClusters : Option Network := some ⟨1, fun _ => 2, fun _ _ => 1, []⟩

/-- A link of the flat routes, and one between the clusters. -/
def linked : List (RouteCmd ℤ) :=
  [.insert 1 2 1, .compute fun _ => 0, .hierInsert ⟨1, 1, 1⟩ ⟨1, 2, 1⟩ 1, .hierCompute fun _ => 0]

theorem inside_iff_safe_sample :
    ∃ s rs, (machine ℤ ℕ).run (start twoClusters) linked = some (s, rs) ∧ ∀ q,
      (s.lookup q ≠ .outside ↔ (RouteHistory.of (shape twoClusters) linked).Safe (shape twoClusters) q) := by
  obtain ⟨⟨s, rs⟩, hrun⟩ := Option.isSome_iff_exists.1
    (by decide +kernel : ((machine ℤ ℕ).run (start twoClusters) linked).isSome)
  exact ⟨s, rs, hrun, inside_iff_safe hrun⟩

/-- A link to a larger number after the routes are computed. -/
def grown : List (RouteCmd ℤ) := [.insert 1 2 1, .compute fun _ => 0, .insert 1 16 1]

/-- The range is that of the larger matrix, and the table is that of the smaller one. -/
theorem not_inside_grown : ¬∀ cmds s rs, (machine ℤ ℕ).run (start none) cmds = some (s, rs) →
    ∀ q, s.lookup q ≠ .outside := by
  intro hall
  have hrun : ∃ s rs, (machine ℤ ℕ).run (start none) grown = some (s, rs) := ⟨_, _, rfl⟩
  obtain ⟨s, rs, hrun⟩ := hrun
  have hsafe := (((follows_start none).run hrun).lookup (.flat 16 16)).1 (hall _ s rs hrun _)
  exact absurd (hsafe 16 rfl (by decide) (by decide)) (by decide)

end RouteTables

end Ns2
