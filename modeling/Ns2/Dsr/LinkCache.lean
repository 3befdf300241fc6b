import Ns2.Dsr.MobiCache

/-! `LinkCache`: the links of the routes a node learns, and Dijkstra's algorithm over them. Links are
kept for both directions and expire by `EXPPOLICY_EXP`, when they are used. What is counted for
statistics is left out. An assertion that fails and an index out of range give no result. -/

namespace Ns2

namespace Dsr

/-- `MAX_SIMTIME`. -/
def maxSimtime : Time := 86400

/-- `LC_MAX_NODES`. -/
def lcMaxNodes : ℕ := 200

def lcGenUseBonus : Time := 300

def lcTableInitVal : Time := 50

def lcTableMultBy : Time := 1 / 2

def lcExpAddAmt : Time := 2

def lcExpDivAmt : Time := 2

def lcMinlifetime : Time := 2

/-- `LINK_FLAG_UP`. -/
def linkFlagUp : ℕ := 0x01

/-- `INFINITY`. -/
def infinity : ℕ := 0x7fffffff

structure Link where
  dst : ℕ
  flags : ℕ
  cost : ℕ
  timeout : Time
  insert : Time
  t : Time
  linkType : LinkType
  logStat : LogStatus

namespace Link

def ofDst (dst : ℕ) : Link := ⟨dst, 0, 0, 0, 0, 0, .none, .unlogged⟩

def expired (now : Time) (l : Link) : Bool := decide (l.timeout ≤ now)

def isUp (l : Link) : Bool := decide (l.flags &&& linkFlagUp ≠ 0)

/-- What `addLink` notes of a link. -/
def renew (linkType : LinkType) (flags : ℕ) (timeout now : Time) (l : Link) : Link :=
  { l with t := now, linkType, flags := l.flags ||| flags, cost := 1, timeout }

end Link

/-- What `dijkstra` works on. -/
structure Tree where
  dl : ℕ → Time
  d : ℕ → ℕ
  pi : ℕ → ℕ
  S : ℕ → Bool

structure LinkCache extends RouteCache where
  lcache : ℕ → List Link
  dirty : Time
  tree : Tree
  exptable : ℕ → Time

namespace LinkCache

/-- The tree is not initialised. -/
def init (rc : RouteCache) (tree : Tree) : LinkCache :=
  ⟨rc, fun _ => [], -1, tree, fun _ => lcTableInitVal⟩

/-- `find_timeout`. -/
def findTimeout (a b : ID) (now : Time) (s : LinkCache) : Time :=
  let lifetime :=
    if s.exptable a.addr > s.exptable b.addr then s.exptable b.addr else s.exptable a.addr
  let lifetime := lifetime * lcTableMultBy
  let lifetime := if lifetime < lcMinlifetime then lcMinlifetime else lifetime
  now + lifetime

def findLink (src dst : ℕ) (s : LinkCache) : Option Link := (s.lcache src).find? (·.dst = dst)

/-- The list of links of a node is changed. -/
def setLinks (src : ℕ) (links : List Link) (s : LinkCache) : LinkCache :=
  { s with lcache := fun u => if u = src then links else s.lcache u }

/-- The link itself, or a new one at the head of the list, is changed by `f`. -/
def putLink (src dst : ℕ) (flags : ℕ) (now : Time) (f : Link → Link) (s : LinkCache) : LinkCache :=
  match s.findLink src dst with
  | none =>
    { s.setLinks src (f { Link.ofDst dst with insert := now } :: s.lcache src) with dirty := now }
  | some l =>
    let s' := s.setLinks src ((s.lcache src).replaceF fun l' =>
      if l'.dst = dst then
        some (f (if l.flags &&& flags ≠ flags then { l' with insert := now } else l'))
      else none)
    if l.flags &&& flags ≠ flags then { s' with dirty := now } else s'

/-- The link is there in both directions from now on. -/
def addLink (src dst : ID) (flags : ℕ) (timeout now : Time) (s : LinkCache) : Option LinkCache :=
  if src.addr ≤ lcMaxNodes ∧ dst.addr ≤ lcMaxNodes then
    let f := Link.renew src.linkType flags timeout now
    some ((s.putLink src.addr dst.addr flags now f).putLink dst.addr src.addr flags now f)
  else none

/-- The first link of a node to another one is removed. -/
def removeLink (src dst : ℕ) (now : Time) (s : LinkCache) : LinkCache :=
  { s.setLinks src ((s.lcache src).eraseP (·.dst = dst)) with dirty := now }

/-- The link is removed in both directions. -/
def delLink (src dst : ID) (now : Time) (s : LinkCache) : LinkCache :=
  let s := if (s.findLink src.addr dst.addr).isSome then s.removeLink src.addr dst.addr now else s
  if (s.findLink dst.addr src.addr).isSome then s.removeLink dst.addr src.addr now else s

def setExp (addr : ℕ) (x : Time) (s : LinkCache) : LinkCache :=
  { s with exptable := fun u => if u = addr then x else s.exptable u }

def noticeDeadLink (src dst : ID) (now : Time) (s : LinkCache) : Option LinkCache :=
  if src.addr ≤ lcMaxNodes ∧ dst.addr ≤ lcMaxNodes then
    match s.findLink src.addr dst.addr with
    | none => some s
    | some l =>
      let s :=
        if l.isUp then
          let s := s.setExp src.addr (s.exptable src.addr / lcExpDivAmt)
          s.setExp dst.addr (s.exptable dst.addr / lcExpDivAmt)
        else s
      some (s.delLink src dst now)
  else none

/-- Each link of a route is added. -/
def addLinks (now : Time) : List ID → LinkCache → Option LinkCache
  | a :: b :: rest, s => do
    let s ← s.addLink a b linkFlagUp (s.findTimeout a b now) now
    addLinks now (b :: rest) s
  | _, s => some s

def noticeRouteUsed (p : Path) (t : Time) (whoFrom : ID) (now : Time) (s : LinkCache) :
    Option LinkCache := do
  match ← s.preNoticeRouteUsed p t whoFrom with
  | none => some s
  | some stub => addLinks now stub.nodes s

def addRoute (route : Path) (t : Time) (whoFrom : ID) (now : Time) (s : LinkCache) :
    Option LinkCache := do
  match ← s.preAddRoute route t whoFrom with
  | none => some s
  | some rt => addLinks now rt.nodes s

end LinkCache

namespace Tree

/-- The nodes of the cache. -/
def nodes : List ℕ := List.range' 1 lcMaxNodes

def initSingleSource (root : ℕ) (T : Tree) : Tree where
  d v := if v = root then 0 else if v ∈ nodes then infinity else T.d v
  dl v := if v = root then maxSimtime else if v ∈ nodes then 0 else T.dl v
  pi v := if v ∈ nodes then 0 else T.pi v
  S v := if v ∈ nodes then false else T.S v

def relax (u v w : ℕ) (timeout : Time) (T : Tree) : Option Tree :=
  if T.d u < infinity ∧ w = 1 then
    if T.d v > T.d u + w ∨ T.d v = T.d u + w ∧ T.dl v < T.dl u ∧ T.dl v < timeout then
      some
        { T with
          d := fun x => if x = v then T.d u + w else T.d x
          dl := fun x => if x = v then (if T.dl u > timeout then timeout else T.dl u) else T.dl x
          pi := fun x => if x = v then u else T.pi x }
    else some T
  else none

/-- The nearest node that is not settled; among those the one with the longest lifetime. -/
def extractMinQ (T : Tree) : ℕ :=
  nodes.foldl (fun minU u =>
    if T.S u = false ∧ T.d u < infinity ∧
      (minU = 0 ∨ T.d u < T.d minU ∨ T.d u = T.d minU ∧ T.dl u > T.dl minU) then u
    else minU) 0

/-- The links of the node `u` that is settled. -/
def scan (u : ℕ) (links : List Link) (T : Tree) : Option Tree :=
  links.foldlM (fun T l => if l.isUp then T.relax u l.dst l.cost l.timeout else some T) T

/-- The loop of `dijkstra`, for at most `fuel` nodes. -/
def settle (lcache : ℕ → List Link) : ℕ → Tree → Option Tree
  | 0, _ => none
  | fuel + 1, T =>
    let u := T.extractMinQ
    if u ≠ 0 then do
      let T ← { T with S := fun x => if x = u then true else T.S x }.scan u (lcache u)
      settle lcache fuel T
    else some T

end Tree

namespace LinkCache

def dijkstra (s : LinkCache) : Option LinkCache := do
  let tree ← (s.tree.initSingleSource s.netId.addr).settle s.lcache (lcMaxNodes + 1)
  some { s with dirty := maxSimtime, tree }

/-- The trace back from `v`, for at most `fuel` nodes: where it ends, and the nodes on it. -/
def trace (s : LinkCache) : ℕ → ℕ → List ℕ → ℕ × List ℕ
  | 0, v, rpath => (v, rpath)
  | fuel + 1, v, rpath =>
    if s.tree.d v < infinity then
      if v = s.netId.addr then (v, rpath ++ [v])
      else trace s fuel (s.tree.pi v) (rpath ++ [v])
    else (v, rpath)

/-- The first link over `hops` that is expired. -/
def firstExpired (now : Time) (s : LinkCache) : ℕ → List ℕ → Option (Option (ℕ × ℕ))
  | _, [] => some none
  | last, v :: rest => do
    let l ← s.findLink last v
    if l.expired now then some (some (last, v)) else firstExpired now s v rest

/-- The identifier that the code builds for a hop. -/
def hopId (addr : ℕ) : ID := ⟨addr, .ip, -1, .none, .none⟩

/-- The use of a link. -/
def useLink (src dst : ℕ) (forMe : Bool) (s : LinkCache) : LinkCache :=
  let s :=
    if forMe then s.setLinks src ((s.lcache src).replaceF fun l =>
      if l.dst = dst then some { l with timeout := l.timeout + lcGenUseBonus } else none)
    else s
  let s := s.setExp src (s.exptable src + lcExpAddAmt)
  s.setExp dst (s.exptable dst + lcExpAddAmt)

/-- The route over `hops` is built behind `route`, whose last node is `last`. -/
def buildRoute (now : Time) (forMe : Bool) : ℕ → List ℕ → LinkCache → Path →
    Option (LinkCache × Path)
  | _, [], s, route => some (s, route)
  | last, v :: rest, s, route => do
    let l ← s.findLink last v
    if l.expired now then none
    else
      let s := s.useLink last v forMe
      let i := route.length - 1
      let route ← route.appendToPath (hopId v)
      let nodes := route.nodes.modify i fun id =>
        { id with t := l.t, linkType := l.linkType, logStat := l.logStat }
      buildRoute now forMe v rest s { route with nodes }

/-- Is there a route to `dest`? With the route that is left in `route`; for at most `fuel` runs over
the links. -/
def findRoute (dest : ID) (route : Path) (forMe : Bool) (now : Time) :
    ℕ → LinkCache → Option (LinkCache × Bool × Path)
  | 0, _ => none
  | fuel + 1, s =>
    if lcMaxNodes < dest.addr then none
    else do
      let s ← (if s.dirty ≤ now then s.dijkstra else some s)
      let (v, rpath) := s.trace maxSrLen dest.addr []
      if rpath.length < 2 ∨ s.tree.d v = infinity ∨ rpath.length ≥ maxSrLen then
        some (s, false, route)
      else
        let hops := rpath.dropLast.reverse
        match ← s.firstExpired now s.netId.addr hops with
        | some (u, w) => findRoute dest route forMe now fuel (s.removeLink u w now)
        | none => do
          let start ← route.reset.appendToPath (hopId s.netId.addr)
          let (s, route) ← s.buildRoute now forMe s.netId.addr hops start
          some (s, true, route)

/-- How many links there are. -/
def linkCount (s : LinkCache) : ℕ := (Tree.nodes.map fun u => (s.lcache u).length).sum

/-- The operations come with the time they are made at. -/
def machine : Machine LinkCache (Time × CacheOp) (Option (Bool × Path)) where
  step s
    | (now, .addRoute route t whoFrom) => (s.addRoute route t whoFrom now).map (·, none)
    | (now, .noticeRouteUsed route t whoFrom) =>
      (s.noticeRouteUsed route t whoFrom now).map (·, none)
    | (now, .noticeDeadLink src dst _) => (s.noticeDeadLink src dst now).map (·, none)
    | (now, .findRoute dest route forMe) =>
      (s.findRoute dest route forMe now (s.linkCount + 1)).map fun r => (r.1, some r.2)

end LinkCache

end Dsr

end Ns2
