import Ns2.Dsr.RouteKeys
import Ns2.Lib.Machine

/-! `MobiCache`: a primary and a secondary cache of source routes. An assertion that fails gives no
result. -/

namespace Ns2

namespace Dsr

structure Cache where
  cache : List Path
  victimPtr : ℕ

namespace Cache

def init (size : ℕ) : Cache := ⟨List.replicate size .init, 0⟩

def size (c : Cache) : ℕ := c.cache.length

/-- The first route from `index` on with `dest` in it, where `dest` stands, and its index. -/
def searchRoute (dest : ID) : ℕ → List Path → Option (ℕ × Path × ℕ)
  | _, [] => none
  | index, p :: rest =>
    match p.nodes.findIdx? (·.eq dest) with
    | some n => some (n, p, index)
    | none => searchRoute dest (index + 1) rest

/-- How far two routes agree. -/
def commonLen : List ID → List ID → ℕ
  | a :: as, b :: bs => if a.eq b then commonLen as bs + 1 else 0
  | _, _ => 0

/-- The first route that `path` contains, or that contains it, and how far they agree. -/
def findSlot (path : Path) : ℕ → List Path → Option (ℕ × ℕ)
  | _, [] => none
  | index, p :: rest =>
    let n := commonLen p.nodes path.nodes
    if n = p.length ∨ n = path.length then some (index, n) else findSlot path (index + 1) rest

/-- The links that a route begins with as `path` does get their timestamps and types from `path`. -/
def freshenPath : List ID → List ID → List ID
  | b :: b' :: bs, a :: a' :: as =>
    if a.eq b then
      (if a'.eq b' then { a with t := b.t, linkType := b.linkType } else a) ::
        freshenPath (b' :: bs) (a' :: as)
    else a :: a' :: as
  | _, l => l

def freshen (path : Path) (c : Cache) : Cache :=
  { c with cache := c.cache.map fun p => { p with nodes := freshenPath path.nodes p.nodes } }

/-- `pickVictim`, with no route to spare. -/
def pickVictim (c : Cache) : ℕ × Cache :=
  match c.cache.findIdx? (·.length = 0) with
  | some i => (i, c)
  | none =>
    (c.victimPtr, { c with victimPtr := if c.victimPtr + 1 = c.size then 0 else c.victimPtr + 1 })

/-- The cache with `path` in it, and how many of its nodes were there before. -/
def addRoute (path : Path) (c : Cache) : Option (Cache × ℕ) :=
  match findSlot path 0 c.cache with
  | some (index, n) => do
    let p ← c.cache[index]?
    let p ← (if n = p.length then (path.nodes.drop n).foldlM Path.appendToPath p else some p)
    some (freshen path { c with cache := c.cache.set index p }, n)
  | none => do
    let (victim, c) := c.pickVictim
    let p ← c.cache[victim]?
    some (freshen path { c with cache := c.cache.set victim (p.reset.copyInto path 0) }, 0)

/-- Where the link stands in a route. -/
def findLink (src dst : ID) : List ID → Option ℕ
  | a :: b :: rest =>
    if a.eq src ∧ b.eq dst then some 0 else (findLink src dst (b :: rest)).map (· + 1)
  | _ => none

def truncate (src dst : ID) (p : Path) : Option Path :=
  match findLink src dst p.nodes with
  | none => some p
  | some 0 => some p.reset
  | some (n + 1) => do
    let p ← p.setLength (n + 1 + 1)
    some { p with nodes := p.nodes.modify (n + 1) fun id => { id with logStat := .unlogged } }

def noticeDeadLink (src dst : ID) (c : Cache) : Option Cache := do
  let cache ← c.cache.mapM (truncate src dst)
  some { c with cache }

end Cache

structure MobiCache extends RouteCache where
  primary : Cache
  secondary : Cache

namespace MobiCache

def init (rc : RouteCache) : MobiCache := ⟨rc, .init 30, .init 64⟩

def addRoute (route : Path) (t : Time) (whoFrom : ID) (m : MobiCache) : Option MobiCache := do
  match ← m.preAddRoute route t whoFrom with
  | none => some m
  | some rt =>
    let (primary, _) ← m.primary.addRoute rt
    some { m with primary }

def noticeDeadLink (src dst : ID) (m : MobiCache) : Option MobiCache := do
  let primary ← m.primary.noticeDeadLink src dst
  let secondary ← m.secondary.noticeDeadLink src dst
  some { m with primary, secondary }

def noticeRouteUsed (p : Path) (t : Time) (whoFrom : ID) (m : MobiCache) : Option MobiCache := do
  match ← m.preNoticeRouteUsed p t whoFrom with
  | none => some m
  | some stub =>
    let (secondary, _) ← m.secondary.addRoute stub
    some { m with secondary }

/-- What `findRoute` notes of the best route so far. -/
structure Found where
  route : Path
  minIndex : ℤ
  minLength : ℕ
  minCache : ℕ

/-- The loop over a cache from `index` on, for at most `fuel` routes with `dest` in them. -/
def search (dest : ID) (note : ℕ → Path → ℕ → Found → Found) (c : Cache) :
    ℕ → ℕ → Found → Option Found
  | 0, _, _ => none
  | fuel + 1, index, f =>
    match Cache.searchRoute dest index (c.cache.drop index) with
    | none => some f
    | some (len, path, index) => search dest note c fuel (index + 1) (note len path index f)

def notePrimary (len : ℕ) (path : Path) (_ : ℕ) (f : Found) : Found :=
  let f := { f with minCache := 2 }
  if len < f.minLength then { f with minLength := len, route := path } else f

def noteSecondary (len : ℕ) (path : Path) (index : ℕ) (f : Found) : Found :=
  if len < f.minLength then ⟨path, index, len, 1⟩ else f

/-- The route at `index` moves from the secondary to the primary cache. -/
def promote (index : ℕ) (m : MobiCache) : Option MobiCache := do
  let path ← m.secondary.cache[index]?
  let (primary, prefixLen) ← m.primary.addRoute path
  let path ← (if 0 < prefixLen then path.setLength prefixLen else some path)
  let path ← path.setLength 0
  some
    { m with primary, secondary := { m.secondary with cache := m.secondary.cache.set index path } }

/-- Is there a route to `dest`? With the route that is left in `route`. -/
def findRoute (dest : ID) (route : Path) (forMe : Bool) (m : MobiCache) :
    Option (MobiCache × Bool × Path) :=
  if m.netId.eq invalidAddr then none
  else do
    let f ← search dest notePrimary m.primary (m.primary.size + 1) 0 ⟨route, -1, maxSrLen + 1, 0⟩
    let f ← search dest noteSecondary m.secondary (m.secondary.size + 1) 0 f
    let m ← (if f.minCache = 1 ∧ forMe then m.promote f.minIndex.toNat else some m)
    if f.minCache ≠ 0 then do
      let route ← f.route.setLength (f.minLength + 1)
      some (m, true, route)
    else some (m, false, f.route)

end MobiCache

/-- What is asked of a route cache. -/
inductive CacheOp where
  | addRoute (route : Path) (t : Time) (whoFrom : ID)
  | noticeRouteUsed (route : Path) (t : Time) (whoFrom : ID)
  | noticeDeadLink (src dst : ID) (t : Time)
  | findRoute (dest : ID) (route : Path) (forMe : Bool)

/-- The answers are those of `findRoute`. -/
def MobiCache.machine : Machine MobiCache CacheOp (Option (Bool × Path)) where
  step m
    | .addRoute route t whoFrom => (m.addRoute route t whoFrom).map (·, none)
    | .noticeRouteUsed route t whoFrom => (m.noticeRouteUsed route t whoFrom).map (·, none)
    | .noticeDeadLink src dst _ => (m.noticeDeadLink src dst).map (·, none)
    | .findRoute dest route forMe =>
      (m.findRoute dest route forMe).map fun r => (r.1, some r.2)

end Dsr

end Ns2
