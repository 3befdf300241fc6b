import Mathlib.Algebra.Order.Ring.Defs
import Mathlib.Data.Int.Cast.Lemmas
import Ns2.Lib.Machine

/-! `RouteLogic`: the matrix of link costs, and the next hops computed from it. Costs are of a type
with an addition and an order, `double`s in the flat part and integers in the hierarchical one. The
`entry` pointers are left out. -/

namespace Ns2

/-- `INFINITY`, the cost of a link that does not exist. -/
def infinity (K : Type*) [NatCast K] : K := (0x3fff : ℕ)

/-- `INDEX`, a row and a column of a matrix with rows of length `n`. -/
def index (i j n : ℕ) : ℕ := n * i + j

/-- `hopcnt` and the row of `route` of one source, with `parent[v] = k` for the nodes routed. -/
structure RouteScan (K : Type*) where
  parent : ℕ → ℕ
  hopcnt : ℕ → K
  route : ℕ → ℕ

namespace RouteScan

variable {K : Type*} [LinearOrder K] [Add K] [NatCast K]

/-- The nodes from 1 below `n`. -/
def nodes (n : ℕ) : List ℕ := List.range' 1 (n - 1)

/-- A neighbour of the source. -/
def setNeighbour (adj : ℕ → K) (n k : ℕ) (s : RouteScan K) (v : ℕ) : RouteScan K :=
  if s.parent v ≠ k then
    { s with
      hopcnt := Function.update s.hopcnt v (adj (index k v n))
      route := if adj (index k v n) ≠ infinity K then Function.update s.route (index k v n) v
        else s.route }
  else s

/-- The node nearest to the subtree that has been routed, 0 if there is none. -/
def nearest (n k : ℕ) (s : RouteScan K) : ℕ :=
  (nodes n).foldl (fun o w => if s.parent w ≠ k ∧ s.hopcnt w < s.hopcnt o then w else o) 0

/-- The distance of a node that is adjacent to `o`. -/
def update (adj : ℕ → K) (n k o : ℕ) (s : RouteScan K) (w : ℕ) : RouteScan K :=
  if s.parent w ≠ k ∧ s.hopcnt o + adj (index o w n) < s.hopcnt w then
    { s with
      route := Function.update s.route (index k w n) (s.route (index k o n))
      hopcnt := Function.update s.hopcnt w (s.hopcnt o + adj (index o w n)) }
  else s

/-- The next node is routed. -/
def extend (adj : ℕ → K) (n k : ℕ) (s : RouteScan K) : RouteScan K :=
  let s := { s with hopcnt := Function.update s.hopcnt 0 (infinity K) }
  let o := s.nearest n k
  let s := { s with parent := Function.update s.parent o k }
  if o = 0 then s else (nodes n).foldl (update adj n k o) s

/-- The routes of the source `k`. -/
def scan (adj : ℕ → K) (n : ℕ) (s : RouteScan K) (k : ℕ) : RouteScan K :=
  let s := (nodes n).foldl (setNeighbour adj n k) { s with parent := id }
  (nodes n).foldl (fun s _ => s.extend adj n k) s

/-- The next hops of all sources; `hopcnt` is what `new` finds in the memory. -/
def routes (adj : ℕ → K) (n : ℕ) (hopcnt : ℕ → K) : ℕ → ℕ :=
  let s := (nodes n).foldl (scan adj n) ⟨id, hopcnt, fun _ => 0⟩
  (nodes n).foldl (fun route k => Function.update route (index k k n) k) s.route

end RouteScan

/-- `route` is `none` until the routes are computed. -/
structure RouteLogic (K : Type*) where
  size : ℕ
  adj : ℕ → K
  route : Option (ℕ → ℕ)

namespace RouteLogic

variable {K : Type*} [LinearOrder K] [Add K] [NatCast K]

def init : RouteLogic K := ⟨0, fun _ => infinity K, none⟩

/-- `none` is a matrix whose size is not an `int`. -/
def alloc (n : ℕ) (s : RouteLogic K) : Option (RouteLogic K) :=
  if n * n < 2 ^ 31 then some { s with size := n, adj := fun _ => infinity K } else none

/-- The first of `m`, `2 * m`, ... above `n`. -/
def doubled (n : ℕ) : ℕ → ℕ → ℕ
  | 0, m => m
  | fuel + 1, m => if m ≤ n then doubled n fuel (m <<< 1) else m

/-- The costs of an array with rows of length `osize` in one with rows of length `m`. -/
def copy (old : ℕ → K) (osize m : ℕ) (adj : ℕ → K) : ℕ → K :=
  (List.range osize).foldl (fun adj i => (List.range osize).foldl (fun adj j =>
    Function.update adj (index i j m) (old (index i j osize))) adj) adj

/-- There is enough storage for a node numbered `n`. -/
def check (n : ℕ) (s : RouteLogic K) : Option (RouteLogic K) :=
  if n < s.size then some s
  else
    let m := doubled n (n + 1) (if s.size = 0 then 16 else s.size)
    (s.alloc m).map fun t => { t with adj := copy s.adj s.size m t.adj }

def insert (src dst : ℕ) (cost : K) (s : RouteLogic K) : Option (RouteLogic K) := do
  let s ← s.check src
  let s ← s.check dst
  some { s with adj := Function.update s.adj (index src dst s.size) cost }

/-- `none` is a failed assertion. -/
def reset (src dst : ℕ) (s : RouteLogic K) : Option (RouteLogic K) :=
  if src < s.size ∧ dst < s.size then
    some { s with adj := Function.update s.adj (index src dst s.size) (infinity K) }
  else none

def computeRoutes (hopcnt : ℕ → K) (s : RouteLogic K) : RouteLogic K :=
  { s with route := some (RouteScan.routes s.adj s.size hopcnt) }

/-- `next_hop`, for nodes numbered as in the matrix. -/
def nextHop (s : RouteLogic K) (src dst : ℕ) : ℕ :=
  match s.route with
  | none => 0
  | some route => route (index src dst s.size)

end RouteLogic

/-- Nodes are numbered as in the matrix: `command` adds 1 to the numbers it is given, and refuses a
negative one. -/
inductive RouteOp (K : Type*) where
  | insert (src dst : ℕ) (cost : K)
  | reset (src dst : ℕ)

def RouteLogic.machine (K : Type*) [LinearOrder K] [Add K] [NatCast K] :
    Machine (RouteLogic K) (RouteOp K) Unit where
  step s
    | .insert src dst cost => (s.insert src dst cost).map fun s => (s, ())
    | .reset src dst => (s.reset src dst).map fun s => (s, ())

end Ns2
