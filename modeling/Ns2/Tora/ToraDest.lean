import Mathlib.Data.Finset.Insert
import Mathlib.Data.Rat.Cast.Order
import Ns2.Lib.Keyed
import Ns2.Lib.Machine

/-! TORA: heights, the neighbours of a node and what it does for one destination. A flag is a
`Bool` where the code has an `int`; the logs and the queue of data packets are left out. A network
of TORA nodes. The links deliver in order what the nodes send; a link comes up and goes down at
each of its ends by itself, and what is on the way is lost only when it is down at one of them. -/

namespace Ns2.Tora

structure Height where
  tau : ℚ
  oid : ℤ
  r : ℤ
  delta : ℤ
  id : ℤ
deriving DecidableEq

namespace Height

/-- The constructor. -/
def new (id : ℤ) : Height := ⟨-1, -1, -1, -1, id⟩

def isNull (h : Height) : Bool := h.tau = -1 && h.oid = -1 && h.r = -1 && h.delta = -1

/-- `Zero()` -/
def setZero (h : Height) : Height := ⟨0, 0, 0, 0, h.id⟩

/-- `Null()` -/
def setNull (h : Height) : Height := ⟨-1, -1, -1, -1, h.id⟩

def compare (a h : Height) : ℤ :=
  if h.tau > a.tau then 1 else if a.tau > h.tau then -1
  else if h.oid > a.oid then 1 else if a.oid > h.oid then -1
  else if h.r > a.r then 1 else if a.r > h.r then -1
  else if h.delta > a.delta then 1 else if a.delta > h.delta then -1
  else if h.id > a.id then 1 else if a.id > h.id then -1
  else 0

end Height

inductive LinkStatus where
  | up
  | dn
  | un
deriving DecidableEq

structure ToraNeighbor where
  index : ℤ
  height : Height
  lnkStat : LinkStatus
  timeAct : ℚ
deriving DecidableEq

namespace ToraNeighbor

def new (now : ℚ) (id : ℤ) : ToraNeighbor := ⟨id, .new id, .un, now⟩

def updateLinkStatus (tn : ToraNeighbor) (h : Height) : ToraNeighbor :=
  { tn with
    lnkStat :=
      if tn.height.isNull then .un
      else if h.isNull then .dn
      else if tn.height.compare h > 0 then .dn
      else if tn.height.compare h < 0 then .up
      else tn.lnkStat }

/-- The neighbour is forgotten: `Null()` and `LINK_UN`. -/
def clear (tn : ToraNeighbor) : ToraNeighbor :=
  { tn with
    height := tn.height.setNull
    lnkStat := .un }

end ToraNeighbor

structure ToraDest where
  index : ℤ
  height : Height
  rtReq : Bool
  timeUpd : ℚ
  nblist : List ToraNeighbor
  numActive : ℤ
  numDown : ℤ
  numUp : ℤ
deriving DecidableEq

/-- `hdr_tora_qry`, `hdr_tora_upd` and `hdr_tora_clr`. -/
inductive ToraMsg where
  | qry (dst : ℤ)
  | upd (dst : ℤ) (height : Height)
  | clr (dst : ℤ) (tau : ℚ) (oid : ℤ)
deriving DecidableEq

namespace ToraMsg

def dst : ToraMsg → ℤ
  | qry dst => dst
  | upd dst _ => dst
  | clr dst _ _ => dst

end ToraMsg

namespace ToraDest

def new (id : ℤ) : ToraDest where
  index := id
  height := .new id
  rtReq := false
  timeUpd := 0
  nblist := []
  numActive := 0
  numDown := 0
  numUp := 0

variable (td : ToraDest)

def nbAdd (now : ℚ) (id : ℤ) : ToraDest :=
  let tn := ToraNeighbor.new now id
  if id = td.index then
    { td with
      nblist := { tn with
        height := tn.height.setZero
        lnkStat := .dn } :: td.nblist
      numActive := td.numActive + 1
      numDown := td.numDown + 1 }
  else
    { td with
      nblist := tn :: td.nblist
      numActive := td.numActive + 1 }

def nbFind (id : ℤ) : Option ToraNeighbor := findKey ToraNeighbor.index id td.nblist

/-- The loop of the functions that look for a neighbour of minimal height. -/
def nbMin (ok : ToraNeighbor → Bool) : Option ToraNeighbor :=
  td.nblist.foldl (fun tnMin tn =>
    if ok tn && tnMin.all fun m => m.height.compare tn.height < 0 then some tn else tnMin) none

def nbFindNextHop : Option ToraNeighbor :=
  td.nbMin fun tn => !tn.height.isNull && tn.lnkStat = .dn

def nbFindMinHeight (r : ℤ) : Option ToraNeighbor := td.nbMin fun tn => tn.height.r = r

def nbFindMinNonnullHeight (h : Height) : Option ToraNeighbor :=
  td.nbMin fun tn =>
    !tn.height.isNull && tn.height.tau = h.tau && tn.height.oid = h.oid && tn.height.r = h.r

def nbFindMaxHeight : Option ToraNeighbor :=
  td.nblist.foldl (fun tnMax tn =>
    if !tn.height.isNull && tnMax.all fun m => m.height.compare tn.height > 0 then some tn
    else tnMax) none

/-- Whether all neighbours of non-null height have the same reference level. -/
def nbCheckSameRef : Bool :=
  match td.nblist.filter fun tn => !tn.height.isNull with
  | [] => true
  | tref :: l => l.all fun tn =>
    tref.height.tau = tn.height.tau && tref.height.oid = tn.height.oid && tref.height.r = tn.height.r

/-- The number of neighbours with this link status. -/
def count (st : LinkStatus) : List ToraNeighbor → ℤ
  | [] => 0
  | tn :: l => count st l + if tn.lnkStat = st then 1 else 0

def updateHeight (tau : ℚ) (oid r delta id : ℤ) : ToraDest :=
  let height : Height := ⟨tau, oid, r, delta, id⟩
  let nblist := td.nblist.map fun tn => tn.updateLinkStatus height
  { td with
    height := height
    nblist := nblist
    numActive := nblist.length
    numDown := count .dn nblist
    numUp := count .up nblist }

/-- A new height of the neighbour `tn`. -/
def updateHeightNb (tn : ToraNeighbor) (h : Height) : ToraDest :=
  let tn' := { tn with height := h }.updateLinkStatus td.height
  let change (st : LinkStatus) : ℤ :=
    (if tn'.lnkStat = st then 1 else 0) - if tn.lnkStat = st then 1 else 0
  { td with
    nblist := updateKey ToraNeighbor.index tn.index (fun _ => tn') td.nblist
    numDown := td.numDown + change .dn
    numUp := td.numUp + change .up }

/-- The neighbour `tn` is taken out of the list. -/
def nbRemove (tn : ToraNeighbor) : ToraDest :=
  { td with
    nblist := eraseKey ToraNeighbor.index tn.index td.nblist
    numActive := td.numActive - 1
    numDown := td.numDown - if tn.lnkStat = .dn then 1 else 0
    numUp := td.numUp - if tn.lnkStat = .up then 1 else 0 }

/-- Without a downstream link, a new reference level is defined, or the height is null. The level and
the height get the id of the destination. -/
def nbLost (now : ℚ) : ToraDest :=
  if td.numUp > 0 then td.updateHeight now td.index 0 0 td.index
  else td.updateHeight (-1) (-1) (-1) (-1) td.index

/-- Whether an UPD is to be sent comes with the new state. -/
def nbDel (now : ℚ) (id : ℤ) : ToraDest × Bool :=
  match td.nbFind id with
  | none => (td, false)
  | some tn =>
    let td := td.nbRemove tn
    if td.numDown = 0 then (td.nbLost now, true) else (td, false)

def sendQRY : ToraMsg := .qry td.index

def sendUPD : ToraMsg := .upd td.index td.height

def sendCLR (tau : ℚ) (oid : ℤ) : ToraMsg := .clr td.index tau oid

/-- A new height is sent. -/
def announce (now : ℚ) (td : ToraDest) : ToraDest × List ToraMsg :=
  ({ td with timeUpd := now }, [td.sendUPD])

/-- The route to the destination is erased, with what is known of the neighbours. -/
def erase : ToraDest :=
  { td with
    height := td.height.setNull
    numDown := 0
    numUp := 0
    nblist := td.nblist.map fun tn =>
      if tn.index = td.index then
        { tn with
          height := tn.height.setZero
          lnkStat := .dn }
      else tn.clear }

/-- `rt_resolve`: a data packet needs a route. -/
def rtResolve : ToraDest × List ToraMsg :=
  match td.nbFindNextHop with
  | none => if td.rtReq then (td, []) else ({ td with rtReq := true }, [td.sendQRY])
  | some _ => (td, [])

variable (now : ℚ) (ipaddr src : ℤ)

def recvQRY : ToraDest × List ToraMsg :=
  if td.rtReq then (td, [])
  else if td.height.r = 0 then
    match td.nbFind src with
    | some tn => if tn.timeAct > td.timeUpd then announce now td else (td, [])
    | none => (td, [])
  else
    match td.nbFindMinHeight 0 with
    | some tn =>
      announce now (td.updateHeight tn.height.tau tn.height.oid tn.height.r (tn.height.delta + 1) ipaddr)
    | none => ({ td with rtReq := true }, if td.numActive > 1 then [td.sendQRY] else [])

/-- `recvUPD`: the last downstream link is lost. -/
def maintain : Option (ToraDest × List ToraMsg) :=
  if td.numUp = 0 then
    if td.height.isNull then some (td, [])
    else some (announce now { td with height := td.height.setNull })
  else if td.nbCheckSameRef then
    match td.nbFindMinHeight 0 with
    | some tn => some (announce now (td.updateHeight tn.height.tau tn.height.oid 1 0 ipaddr))
    | none =>
      if td.height.oid = ipaddr then some (td.erase, [td.sendCLR td.height.tau td.height.oid])
      else
        some (announce now { td.updateHeight now ipaddr 0 0 ipaddr with rtReq := false })
  else
    match td.nbFindMaxHeight with
    | none => none
    | some n =>
      match td.nbFindMinNonnullHeight n.height with
      | none => none
      | some m =>
        some (announce now
          (td.updateHeight m.height.tau m.height.oid m.height.r (m.height.delta - 1) ipaddr))

/-- The neighbour `tn` has the height `h`; `none` is an assertion that fails. -/
def recvUPD (h : Height) : Option (ToraDest × List ToraMsg) :=
  match td.nbFind src with
  | none => some (td, [])
  | some tn =>
    let td := td.updateHeightNb tn h
    if td.rtReq && h.r = 0 then
      some (announce now { td.updateHeight h.tau h.oid h.r (h.delta + 1) ipaddr with rtReq := false })
    else if td.numDown = 0 then td.maintain now ipaddr
    else some (td, [])

/-- Whether a CLR erases the route. -/
def Clears (tau : ℚ) (oid : ℤ) : Prop := td.height.tau = tau ∧ td.height.oid = oid ∧ td.height.r = 1

instance (tau : ℚ) (oid : ℤ) : Decidable (td.Clears tau oid) :=
  inferInstanceAs (Decidable (_ ∧ _))

/-- `recvCLR`: the heights of the sender and of this reference level are forgotten. -/
def forget (tau : ℚ) (oid : ℤ) : ToraDest :=
  { td with
    nblist := (updateKey ToraNeighbor.index src ToraNeighbor.clear td.nblist).map fun tn =>
      if tn.height.tau = tau ∧ tn.height.oid = oid ∧ tn.height.r = 1 then tn.clear else tn }

def recvCLR (tau : ℚ) (oid : ℤ) : ToraDest × List ToraMsg :=
  if td.Clears tau oid then
    (td.erase, if td.numActive > 1 then [td.sendCLR tau oid] else [])
  else
    match td.nbFind src with
    | none => (td, [])
    | some _ =>
      let td := td.forget src tau oid
      if td.numDown = 0 then
        if td.numUp = 0 then
          if td.height.isNull then (td, [])
          else announce now { td with height := td.height.setNull }
        else announce now { td.updateHeight now ipaddr 0 0 ipaddr with rtReq := false }
      else (td, [])

/-- The handler of a message from `src`. -/
def recv : ToraMsg → Option (ToraDest × List ToraMsg)
  | .qry _ => some (td.recvQRY now ipaddr src)
  | .upd _ h => td.recvUPD now ipaddr src h
  | .clr _ tau oid => some (td.recvCLR now ipaddr src tau oid)

end ToraDest

/-- `biLinks` is what `imepGetBiLinks` returns. -/
structure ToraAgent where
  ipaddr : ℤ
  dstlist : List ToraDest
  biLinks : List ℤ
deriving DecidableEq

namespace ToraAgent

variable (a : ToraAgent) (now : ℚ)

def init (ipaddr : ℤ) : ToraAgent := ⟨ipaddr, [], []⟩

def dstFind (id : ℤ) : Option ToraDest := findKey ToraDest.index id a.dstlist

/-- `dst_add`, when the destination is not in the list yet. -/
def dstNew (id : ℤ) : ToraDest := a.biLinks.foldl (fun td j => td.nbAdd now j) (.new id)

/-- The destination is looked for and added when it is not found, and `f` is applied to it. -/
def atDst (id : ℤ) (f : ToraDest → Option (ToraDest × List ToraMsg)) :
    Option (ToraAgent × List ToraMsg) :=
  match a.dstFind id with
  | some td => (f td).map fun r =>
      ({ a with dstlist := updateKey ToraDest.index id (fun _ => r.1) a.dstlist }, r.2)
  | none => (f (a.dstNew now id)).map fun r => ({ a with dstlist := r.1 :: a.dstlist }, r.2)

def rtResolve (dst : ℤ) : Option (ToraAgent × List ToraMsg) :=
  a.atDst now dst fun td => some td.rtResolve

def recvTORA (src : ℤ) (msg : ToraMsg) : Option (ToraAgent × List ToraMsg) :=
  if msg.dst = a.ipaddr then some (a, [])
  else a.atDst now msg.dst fun td => td.recv now a.ipaddr src msg

def rtNotifyLinkUP (index : ℤ) : ToraAgent × List ToraMsg :=
  ({ a with
      biLinks := index :: a.biLinks
      dstlist := a.dstlist.map fun td => if (td.nbFind index).isNone then td.nbAdd now index else td },
    (a.dstlist.filter ToraDest.rtReq).map ToraDest.sendQRY)

def rtNotifyLinkDN (index : ℤ) : ToraAgent × List ToraMsg :=
  ({ a with
      biLinks := a.biLinks.erase index
      dstlist := a.dstlist.map fun td => (td.nbDel now index).1 },
    a.dstlist.filterMap fun td =>
      if (td.nbDel now index).2 then some (td.nbDel now index).1.sendUPD else none)

/-- The height for the destination `d`; it is null without a record of `d`. -/
def height (d : ℤ) : Height :=
  match a.dstFind d with
  | some td => td.height
  | none => .new d

end ToraAgent

/-- `link i j` holds what `i` has sent to `j`. -/
structure ToraNetwork where
  node : ℤ → ToraAgent
  link : ℤ → ℤ → List ToraMsg

/-- A data packet at `i` needs a route; the link to `j` comes up or goes down at `i`; `j` receives a
message of `i`; what is on the way from `i` to `j` is lost. -/
inductive ToraEvent where
  | resolve (i dst : ℤ)
  | linkUp (i j : ℤ)
  | linkDown (i j : ℤ)
  | deliver (i j : ℤ)
  | lose (i j : ℤ)
deriving DecidableEq

namespace ToraNetwork

variable (net : ToraNetwork)

def start : ToraNetwork where
  node := .init
  link := fun _ _ => []

/-- The new state of node `i`, and what it sends to its neighbours. -/
def act (i : ℤ) (r : ToraAgent × List ToraMsg) : ToraNetwork where
  node := Function.update net.node i r.1
  link := Function.update net.link i fun j =>
    if j ∈ r.1.biLinks then net.link i j ++ r.2 else net.link i j

/-- The messages from `i` to `j` are `l`. -/
def setLink (i j : ℤ) (l : List ToraMsg) : ToraNetwork :=
  { net with link := Function.update net.link i (Function.update (net.link i) j l) }

/-- `none` is an assertion that fails; what cannot happen has no effect. -/
def handle (now : ℚ) : ToraEvent → Option ToraNetwork
  | .resolve i dst => ((net.node i).rtResolve now dst).map (net.act i)
  | .linkUp i j =>
    if i = j ∨ j ∈ (net.node i).biLinks then some net
    else some (net.act i ((net.node i).rtNotifyLinkUP now j))
  | .linkDown i j =>
    if j ∈ (net.node i).biLinks then some (net.act i ((net.node i).rtNotifyLinkDN now j)) else some net
  | .deliver i j =>
    match net.link i j with
    | [] => some net
    | msg :: l => ((net.node j).recvTORA now i msg).map ((net.setLink i j l).act j)
  | .lose i j =>
    if j ∈ (net.node i).biLinks ∧ i ∈ (net.node j).biLinks then some net
    else some (net.setLink i j [])

/-- The routes to `d`: `nb_find_next_hop` of node `i` is `j`. -/
def NextHop (d i j : ℤ) : Prop :=
  ∃ td tn, (net.node i).dstFind d = some td ∧ td.nbFindNextHop = some tn ∧ tn.index = j

end ToraNetwork

/-- The nodes of an event. -/
def ToraEvent.nodes : ToraEvent → List ℤ
  | resolve i _ => [i]
  | linkUp i j => [i, j]
  | linkDown i j => [i, j]
  | deliver i j => [i, j]
  | lose i j => [i, j]

/-- The network of `nodes`. An event comes with the time; those of other nodes have no effect. -/
def toraNetwork (nodes : Finset ℤ) : Machine ToraNetwork (ℚ × ToraEvent) Unit where
  step net e :=
    if ∀ i ∈ e.2.nodes, i ∈ nodes then (net.handle e.1 e.2).map fun net => (net, ()) else some (net, ())

end Ns2.Tora
