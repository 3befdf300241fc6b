import Ns2.Routing.RouteLogic

/-! The hierarchical part of `RouteLogic`: three levels, and a matrix for every cluster whose points
are its nodes, the clusters of its domain and the domains. Numbers in addresses are from 1 on, as
`ns_strtok` makes them, with 0 for those that are not positive there. -/

namespace Ns2

@[ext] structure HierAddr where
  domain : ℕ
  cluster : ℕ
  node : ℕ
deriving DecidableEq, Repr

/-- `N_N_INDEX` and the others, for `a` nodes, and `b - 1` clusters and `c - 1` domains. -/
def nnIndex (i j a b c : ℕ) : ℕ := i * (a + b + c) + j

def ncIndex (i j a b c : ℕ) : ℕ := i * (a + b + c) + (a + j)

def ndIndex (i j a b c : ℕ) : ℕ := i * (a + b + c) + (a + (b - 1) + j)

def ccIndex (i j a b c : ℕ) : ℕ := (a + i) * (a + b + c) + (a + j)

def cdIndex (i j a b c : ℕ) : ℕ := (a + i) * (a + b + c) + (a + (b - 1) + j)

def ddIndex (i j a b c : ℕ) : ℕ := (a + (b - 1) + i) * (a + b + c) + (a + (b - 1) + j)

/-- `hadj`, `hroute` and `hconnect` of one cluster; `hconnect` is `none` where nothing is written. -/
structure HierTables where
  hadj : ℕ → ℤ
  hroute : ℕ → ℕ
  hconnect : ℕ → Option HierAddr

namespace HierTables

def hierAlloc : HierTables := ⟨fun _ => infinity ℤ, fun _ => 0x3fff, fun _ => none⟩

def setCost (cell : ℕ) (cost : ℤ) (t : HierTables) : HierTables :=
  { t with hadj := Function.update t.hadj cell cost }

def setConnect (cell : ℕ) (a : HierAddr) (t : HierTables) : HierTables :=
  { t with hconnect := Function.update t.hconnect cell (some a) }

end HierTables

/-- `D` and `C` are larger by 1 than the numbers of domains and of clusters. -/
structure HierShape where
  D : ℕ
  C : ℕ → ℕ
  Cmax : ℕ
  clusterSize : ℕ → ℕ

/-- A cluster has no tables while its `hsize` is 0. -/
structure HierLogic extends HierShape where
  tables : ℕ → Option HierTables

/-- What `hier-lookup` answers: `crash` is for an address that was never written. -/
inductive HierResult where
  | error (text : String)
  | unreachable
  | next (a : HierAddr)
  | crash
deriving DecidableEq

namespace HierLogic

open HierTables
open RouteScan (nodes)

def hierInit (D : ℕ) (C : ℕ → ℕ) : HierLogic where
  D := D
  C := C
  Cmax := (nodes D).foldl (fun m i => if C i > m then C i else m) 0
  clusterSize := fun _ => 0
  tables := fun _ => none

/-- `send-num-of-nodes`, where `n i j` is the argument for the cluster `j` of the domain `i`. -/
def sendNumOfNodes (n : ℕ → ℕ → ℕ) (s : HierLogic) : HierLogic :=
  { s with
    clusterSize := (nodes s.D).foldl (fun f i => (nodes (s.C i)).foldl (fun f j =>
      Function.update f (index i j s.Cmax) (n i j)) f) s.clusterSize }

def hierCheck (i : ℕ) (s : HierLogic) : HierLogic :=
  if (s.tables i).isSome then s else { s with tables := Function.update s.tables i (some hierAlloc) }

def write (i : ℕ) (f : HierTables → HierTables) (s : HierLogic) : HierLogic :=
  { s with tables := Function.update s.tables i ((s.tables i).map f) }

/-- Connectivity between two clusters of a domain, as the cluster `y` keeps it. -/
def insertCluster (src dst : HierAddr) (cost : ℤ) (s : HierLogic) (y : ℕ) : HierLogic :=
  let i := index src.domain y s.Cmax
  let n := s.clusterSize i
  let c := s.C src.domain
  let s := (s.hierCheck i).write i (setCost (ccIndex src.cluster dst.cluster n c s.D) cost)
  if y = src.cluster then
    (s.write i (setCost (ncIndex src.node dst.cluster n c s.D) cost)).write i
      (setConnect (src.node * (c + s.D) + dst.cluster) dst)
  else s

/-- Connectivity between two domains, as the cluster `y` of the domain `x` keeps it. -/
def insertDomain (src dst : HierAddr) (cost : ℤ) (x : ℕ) (s : HierLogic) (y : ℕ) : HierLogic :=
  let i := index x y s.Cmax
  (s.hierCheck i).write i
    (setCost (ddIndex src.domain dst.domain (s.clusterSize i) (s.C x) s.D) cost)

/-- Connectivity of a cluster to another domain, as the cluster `y` of its domain keeps it. -/
def insertBorder (src dst : HierAddr) (cost : ℤ) (s : HierLogic) (y : ℕ) : HierLogic :=
  let i := index src.domain y s.Cmax
  (s.hierCheck i).write i
    (setCost (cdIndex src.cluster dst.domain (s.clusterSize i) (s.C src.domain) s.D) cost)

def hierInsert (src dst : HierAddr) (cost : ℤ) (s : HierLogic) : HierLogic :=
  if src.domain = dst.domain then
    if src.cluster = dst.cluster then
      let i := index src.domain src.cluster s.Cmax
      (s.hierCheck i).write i
        (setCost (nnIndex src.node dst.node (s.clusterSize i) (s.C src.domain) s.D) cost)
    else (nodes (s.C src.domain)).foldl (insertCluster src dst cost) s
  else
    let s := (nodes s.D).foldl
      (fun s x => (nodes (s.C x)).foldl (insertDomain src dst cost x) s) s
    let s := (nodes (s.C src.domain)).foldl (insertBorder src dst cost) s
    let i := index src.domain src.cluster s.Cmax
    let c := s.C src.domain
    (s.write i (setCost (ndIndex src.node dst.domain (s.clusterSize i) c s.D) cost)).write i
      (setConnect (src.node * (c + s.D) + (c - 1 + dst.domain)) dst)

/-- The routes of the cluster `k` of the domain `j`; `none` where it has no tables to read. -/
def hierComputeRoutes (hopcnt : ℕ → ℤ) (j : ℕ) (s : HierLogic) (k : ℕ) : Option HierLogic :=
  let i := index j k s.Cmax
  let n := s.clusterSize i + s.C j + s.D
  (s.tables i).map fun t =>
    let route := RouteScan.routes t.hadj n hopcnt
    let t := { t with hroute := fun c => if c < n * n then route c else t.hroute c }
    { s with tables := Function.update s.tables i (some t) }

def hierCompute (hopcnt : ℕ → ℤ) (s : HierLogic) : Option HierLogic :=
  (nodes s.D).foldlM (fun s j => (nodes (s.C j)).foldlM (hierComputeRoutes hopcnt j) s) s

/-- The address that the point `nextHop` stands for. -/
def getAddress (t : HierTables) (nextHop c D size : ℕ) (src : HierAddr) : Option HierAddr :=
  if nextHop ≤ size then some ⟨src.domain, src.cluster, nextHop⟩
  else if nextHop < size + c then
    let temp := nextHop - size
    t.hconnect (src.node * (c + D) + temp)
  else
    let temp := nextHop - size - (c - 1)
    t.hconnect (src.node * (c + D) + (c - 1 + temp))

def lookupHier (src dst : HierAddr) (s : HierLogic) : HierResult :=
  if src.domain = 0 ∨ src.cluster = 0 ∨ src.node = 0 then .error "negative src node number"
  else if dst.domain = 0 then .error "negative dst domain number"
  else
    let i := index src.domain src.cluster s.Cmax
    let c := s.C src.domain
    let size := s.clusterSize i
    match s.tables i with
    | none => .error "Routes not computed"
    | some t =>
      if s.D ≤ src.domain ∧ s.D ≤ dst.domain then .error "node out of range"
      else
        let nextHop :=
          if (dst.cluster = 0 ∧ dst.node = 0) ∨ src.domain ≠ dst.domain then
            t.hroute (ndIndex src.node dst.domain size c s.D)
          else if dst.node = 0 ∨ src.cluster ≠ dst.cluster then
            t.hroute (ncIndex src.node dst.cluster size c s.D)
          else t.hroute (nnIndex src.node dst.node size c s.D)
        if nextHop > 0 then
          match getAddress t nextHop c s.D size src with
          | none => .crash
          | some a => .next a
        else .unreachable

/-- The node that a packet for `dst` is at after `m` hops, if every lookup names one. -/
def forward (s : HierLogic) (dst : HierAddr) : ℕ → HierAddr → Option HierAddr
  | 0, a => some a
  | m + 1, a =>
    match s.lookupHier a dst with
    | .next b => s.forward dst m b
    | _ => none

end HierLogic

end Ns2
