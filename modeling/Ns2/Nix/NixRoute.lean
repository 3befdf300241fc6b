import Ns2.Nix.NixVec
import Ns2.RouteAlgo.BitMap

/-! `BFS` over the nodes, the vector `NixRoute` makes of the parents, and the way `NixClassifier`
takes a packet. Identifiers of nodes and distances are taken as unbounded, with `NODE_NONE` as
`none`; an assertion that fails, an exit and a node that is not there give no result. -/

namespace Ns2

open RouteAlgo

/-- `NixNode`: `adj` are the neighbours at the other ends of its edges. -/
structure NixNode where
  id : ℕ
  adj : List ℕ
  adj_lt : adj.length < 2 ^ 32

/-- What a classifier gives a packet to: the receiver in the node, or a link to a neighbour. -/
inductive NsObject where
  | dmux
  | linkHead (src dst : ℕ)
  deriving DecidableEq

namespace NixNode

def getNixl (n : NixNode) : ℕ := NixVec.getBitl (BitVec.ofNat 32 n.adj.length - 1)

/-- The index of the neighbour and the width of its field. -/
def getNix (n : NixNode) (t : ℕ) : Nix × ℕ :=
  let rec search (i : ℕ) : List ℕ → Nix × ℕ
    | [] => (nixNone, 0)
    | m :: rest => if m = t then (BitVec.ofNat 32 i, n.getNixl) else search (i + 1) rest
  search 0 n.adj

def getNeighbor (n : NixNode) (nix : Nix) : Option ℕ := n.adj[nix.toNat]?

/-- `PopulateObjects`: the links in the order of the edges. -/
def adjObj (n : NixNode) : List NsObject := n.adj.map (NsObject.linkHead n.id)

def getNsNeighbor (n : NixNode) (nix : Nix) : Option NsObject := n.adjObj[nix.toNat]?

end NixNode

namespace NixRoute

/-- What `BFS` works on. -/
structure BfsState where
  B : BitMap 32
  Q : List NixNode
  D : List ℕ
  nextHop : List (Option ℕ)
  parent : List (Option ℕ)

/-- `INF`. -/
def inf : ℕ := 0xffffffff

def BfsState.init (N : List NixNode) (root : ℕ) : Option BfsState := do
  let b ← (BitMap.new 32 N.length 1).set root 1
  let r ← N[root]?
  some ⟨b, [r], (List.replicate N.length inf).set root 0, List.replicate N.length none,
    List.replicate N.length none⟩

/-- The search comes to the neighbour `v` of `u`. -/
def visit (N : List NixNode) (root : ℕ) (u : NixNode) (s : BfsState) (v : ℕ) :
    Option BfsState := do
  if (← s.B.get v) = 0 then
    let n ← N[v]?
    let b ← s.B.set v 1
    some
      { B := b
        Q := s.Q ++ [n]
        D := s.D.set v (s.D.getD u.id inf + 1)
        parent := s.parent.set v (some u.id)
        nextHop := s.nextHop.set v (if u.id = root then some v else s.nextHop.getD u.id none) }
  else some s

/-- The loop over the queue, for at most `fuel` nodes. -/
def search (N : List NixNode) (root : ℕ) : ℕ → BfsState → Option BfsState
  | 0, _ => none
  | fuel + 1, s =>
    match s.Q with
    | [] => some s
    | u :: _ => do
      let s ← u.adj.foldlM (visit N root u) s
      search N root fuel { s with Q := s.Q.tail }

def bfs (N : List NixNode) (root fuel : ℕ) : Option (List (Option ℕ) × List (Option ℕ)) := do
  let s ← BfsState.init N root
  let s ← search N root fuel s
  some (s.nextHop, s.parent)

/-- The fields for the nodes from `s` to `p` are added, over at most `fuel` parents. -/
def nixPred (s : ℕ) (pred : List (Option ℕ)) (N : List NixNode) : ℕ → ℕ → NixVec → Option NixVec
  | 0, _, _ => none
  | fuel + 1, p, nv =>
    if s = p then some nv
    else do
      match ← pred[p]? with
      | none => some nv
      | some q =>
        let nv ← nixPred s pred N fuel q nv
        let (nix, l) := (← N[q]?).getNix p
        if nix = nixNone then none else some (nv.add nix l)

def nixRoute (s d : ℕ) (pred : List (Option ℕ)) (N : List NixNode) (fuel : ℕ) (nv : NixVec) :
    Option NixVec :=
  nixPred s pred N fuel d nv

def computeNixVector (N : List NixNode) (fuel s t : ℕ) : Option NixVec := do
  let (_, parent) ← bfs N s fuel
  nixRoute s t parent N fuel .init

/-- The fields of a packet: its destination, the vector and how many bits of it are used. -/
structure NixPacket where
  daddr : ℕ
  nv : NixVec
  used : ℕ

/-- `NixClassifier::find` at the node `nodeId`. -/
def find (N : List NixNode) (nodeId : ℕ) (p : NixPacket) : Option (NsObject × NixPacket) := do
  let n ← N[nodeId]?
  if p.daddr = n.id then some (.dmux, p)
  else
    let (nix, used) := p.nv.extract n.getNixl p.used
    let _ ← n.getNeighbor nix
    let obj ← n.getNsNeighbor nix
    some (obj, { p with used })

/-- The nodes a packet visits, until a node gives it to its receiver, over at most `fuel` nodes. -/
def travel (N : List NixNode) : ℕ → ℕ → NixPacket → Option (List ℕ × NixPacket)
  | 0, _, _ => none
  | fuel + 1, nodeId, p => do
    match ← find N nodeId p with
    | (.dmux, p) => some ([nodeId], p)
    | (.linkHead _ dst, p) =>
      let (visited, p) ← travel N fuel dst p
      some (nodeId :: visited, p)

end NixRoute

end Ns2
