import Mathlib.Algebra.Order.Ring.Int
import Ns2.Lib.OrdMap

/-! The link state database. Of the map only the order of the keys and the entries are kept.
`LsRouting::_computeRoutes`: the paths of equal cost to every destination, from the link state
database. -/

namespace Ns2.LinkState

inductive LsStatus where
  | down
  | up
deriving DecidableEq

/-- `LsLinkState`, a link to `neighborId`. -/
structure LsLinkState where
  neighborId : ℤ
  status : LsStatus
  cost : ℤ
deriving DecidableEq

/-- `LsTopoMap`, the links of each origin. -/
abbrev LsTopoMap := OrdMap ℤ (List LsLinkState)

end Ns2.LinkState

namespace Ns2.LinkState

/-- `LS_INVALID_NODE_ID` -/
def lsInvalidNodeId : ℤ := 65535

/-- `LS_INVALID_COST` -/
def lsInvalidCost : ℤ := 65535

/-- `LS_MAX_COST` -/
def lsMaxCost : ℤ := 65534

abbrev LsNodeIdList := List ℤ

/-- `LsNodeIdList::appendUnique`; the number of new hops is not used. -/
def LsNodeIdList.appendUnique (l x : LsNodeIdList) : LsNodeIdList :=
  x.foldl (fun l id => if id ∈ l then l else l ++ [id]) l

structure LsPath where
  destination : ℤ
  cost : ℤ
  nextHop : ℤ

/-- A path as constructed without arguments: `isValid` fails on its destination and does not come
to the other two fields, which are not initialised. -/
def LsPath.invalid : LsPath := ⟨lsInvalidNodeId, lsInvalidCost, lsInvalidCost⟩

def LsPath.isValid (p : LsPath) : Bool :=
  p.destination ≠ lsInvalidNodeId ∧ p.cost ≠ lsInvalidCost ∧ p.nextHop ≠ lsInvalidCost

structure LsEqualPaths where
  cost : ℤ
  nextHopList : LsNodeIdList
deriving DecidableEq

abbrev LsPaths := OrdMap ℤ LsEqualPaths

namespace LsPaths

def lookupCost (destId : ℤ) (m : LsPaths) : ℤ :=
  match m.find destId with
  | none => lsMaxCost + 1
  | some ep => ep.cost

def lookupNextHopList (destId : ℤ) (m : LsPaths) : Option LsNodeIdList :=
  (m.find destId).map LsEqualPaths.nextHopList

/-- `LsMap::insert` leaves an entry that exists as it is. -/
def insertPathNoChecking (path : LsPath) (m : LsPaths) : LsPaths :=
  match m.find path.destination with
  | none => m.set path.destination ⟨path.cost, [path.nextHop]⟩
  | some _ => m

/-- The iterator that is returned is not used. -/
def insertPath (path : LsPath) (m : LsPaths) : LsPaths :=
  match m.find path.destination with
  | none => m.insertPathNoChecking path
  | some ep =>
    if ep.cost < path.cost then m
    else if ep.cost > path.cost then m.set path.destination ⟨path.cost, [path.nextHop]⟩
    else if path.nextHop ∈ ep.nextHopList then m
    else m.set path.destination { ep with nextHopList := ep.nextHopList ++ [path.nextHop] }

def insertNextHopList (destId cost : ℤ) (nextHopList : LsNodeIdList) (m : LsPaths) : LsPaths :=
  match m.find destId with
  | none => m.set destId ⟨cost, nextHopList⟩
  | some oldEp =>
    if oldEp.cost < cost then m
    else if oldEp.cost > cost then m.set destId ⟨cost, nextHopList⟩
    else m.set destId { oldEp with nextHopList := oldEp.nextHopList.appendUnique nextHopList }

/-- `LsPathsTentative::findMinEqualPaths`: the first of the cheapest entries, if one costs at most
`LS_MAX_COST`. -/
def findMinEqualPaths (m : LsPaths) : Option (ℤ × LsEqualPaths) :=
  (m.entries.foldl (fun (best : ℤ × Option (ℤ × LsEqualPaths)) e =>
    if best.1 > e.2.cost ∧ ¬e.2.nextHopList.isEmpty then (e.2.cost, some e) else best)
    (lsMaxCost + 1, none)).2

/-- `LsPathsTentative::popShortestPath`: the path over the first hop of the cheapest entry. -/
def popShortestPath (m : LsPaths) : LsPath × LsPaths :=
  match m.findMinEqualPaths with
  | none => (.invalid, m)
  | some (dest, ep) =>
    match ep.nextHopList with
    | [] => (.invalid, m)
    | nextHop :: nhList =>
      (⟨dest, ep.cost, nextHop⟩,
        if nhList.isEmpty then m.erase dest else m.set dest { ep with nextHopList := nhList })

end LsPaths

/-- What `_computeRoutes` ends with: `aborted` is a call of `ls_error`. -/
inductive Outcome where
  | returned (paths : LsPaths)
  | aborted

section

variable (myNodeId : ℤ) (linkStateDatabase : LsTopoMap)

/-- One link of a node that has just been put in `paths`; `nhl` are the next hops to it. -/
def followLink (newNodeId : ℤ) (nhl : LsNodeIdList) (paths tentativePaths : LsPaths)
    (link : LsLinkState) : LsPaths :=
  if link.status ≠ .up then tentativePaths
  else
    let pathCost := link.cost + paths.lookupCost newNodeId
    if paths.lookupCost link.neighborId < pathCost then tentativePaths
    else tentativePaths.insertNextHopList link.neighborId pathCost
      (if newNodeId = myNodeId then [link.neighborId] else nhl)

/-- The links of a node that has just been put in `paths`; `none` is a call of `ls_error`. -/
def expand (newNodeId : ℤ) (lsl : List LsLinkState) (paths tentativePaths : LsPaths) :
    Option LsPaths := do
  let nhl ← if newNodeId = myNodeId then some [] else paths.lookupNextHopList newNodeId
  return lsl.foldl (followLink myNodeId newNodeId nhl paths) tentativePaths

/-- The loops of `_computeRoutes`, one round for each path that is popped; `none` if `fuel` rounds
are not enough. The links of the node are followed when the inner loop is left, that is if they are
known. -/
def popPaths : ℕ → LsPaths → LsPaths → Option Outcome
  | 0, _, _ => none
  | fuel + 1, paths, tentativePaths =>
    if tentativePaths.entries.isEmpty then some (.returned paths)
    else
      let (sp, tentativePaths) := tentativePaths.popShortestPath
      if ¬sp.isValid then some .aborted
      else
        let paths := paths.insertPath sp
        match linkStateDatabase.find sp.destination with
        | none => popPaths fuel paths tentativePaths
        | some lsl =>
          match expand myNodeId sp.destination lsl paths tentativePaths with
          | none => some .aborted
          | some tentativePaths => popPaths fuel paths tentativePaths

/-- `_computeRoutes`; `none` if `fuel` rounds are not enough. -/
def computeRoutes (fuel : ℕ) : Option Outcome :=
  let paths := LsPaths.insertPathNoChecking ⟨myNodeId, 0, myNodeId⟩ OrdMap.empty
  match linkStateDatabase.find myNodeId with
  | none => some (.returned paths)
  | some lsl =>
    match expand myNodeId myNodeId lsl paths OrdMap.empty with
    | none => some .aborted
    | some tentativePaths => popPaths myNodeId linkStateDatabase fuel paths tentativePaths

end

end Ns2.LinkState
