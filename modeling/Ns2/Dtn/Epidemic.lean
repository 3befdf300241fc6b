import Ns2.Lib.Text

/-! Lists of bundle ids as text, each id followed by a `-`, and the three functions that take such
a text apart. The epidemic session between two agents. The one with the higher rule sends the list
of its bundles (c1), the other one answers with its own list and the bundles it asks for (c2), and
is asked for bundles in turn (c3). A string that is copied into an array needs a place for its end
there. The arrays whose size is made of `max_uid_length` (0 by default, 100 in the scripts) are taken
to be long enough. -/

namespace Ns2

namespace EpidemicRouting

open List

/-- An array of the length of a payload that was filled with it, read as a string; `none` if the payload
has no end in it. -/
def payloadString (payload : List Char) : Option (List Char) :=
  Str.stored payload.length (payload.takeWhile fun c => c ≠ '\x00')

/-- The ids with a `-` behind each. -/
def idsText (ids : List (List Char)) : List Char := ids.flatMap fun id => id ++ ['-']

/-- The places where a `-` stands in front of an `R`. -/
def countDashR : List Char → ℕ
  | [] => 0
  | c :: l => (if c = '-' ∧ l.head? = some 'R' then 1 else 0) + countDashR l

/-- `recv_list_` has the length of the list. -/
def numberOfBundles (l : List Char) : Option ℕ :=
  if l.length > 12 then
    (Str.stored l.length l).map fun recvList =>
      (if (recvList.dropWhile fun c => c ≠ 'R').length > 16 then countDashR recvList else 0) + 1
  else some 0

/-- The loop of `list_diff` over the received list: `currentId` is not cleared behind a
short id and behind the last one. `none` writes past the end of the array. -/
def receivedIds (nr : ℕ) : List Char → List Char → List (List Char) → Option (List (List Char))
  | [], _, ids => some ids
  | c :: recv, currentId, ids =>
    if c ≠ '-' then receivedIds nr recv (currentId ++ [c]) ids
    else if currentId.length > 14 then
      if ids.length < nr then
        receivedIds nr recv (if ids.length + 1 < nr then [] else currentId) (ids ++ [currentId])
      else none
    else receivedIds nr recv currentId ids

/-- `strlen` of the buffer is over 14. -/
def LongId (mem : ℕ → Char) : Prop := ∀ i < 15, mem i ≠ '\x00'

instance : DecidablePred LongId := fun mem =>
  inferInstanceAs (Decidable (∀ i < 15, mem i ≠ '\x00'))

/-- The string in front of position `j`. -/
def cString (mem : ℕ → Char) (j : ℕ) : List Char :=
  ((range j).map mem).takeWhile fun c => c ≠ '\x00'

/-- The loop of `send_bundles_list` over the list; `mem` is the buffer, which is not set
before it is read, and `j` the next position. -/
def scanIds : List Char → (ℕ → Char) → ℕ → List (List Char)
  | [], _, _ => []
  | c :: list, mem, j =>
    if c ≠ '-' then scanIds list (Function.update mem j c) (j + 1)
    else if LongId mem then
      cString mem j :: scanIds list (Function.update (Function.update mem j '\x00') 0 '\x00') 0
    else scanIds list mem 0

/-- The form of the ids that the code builds. -/
structure WfUid (id : List Char) : Prop where
  head : id.head? = some 'R'
  long : 14 < id.length
  mark : 'r' ∈ id
  dash : '-' ∉ id
  star : '*' ∉ id
  nul : '\x00' ∉ id

/-- What the scans of a list rely on. -/
structure ListedId (id : List Char) : Prop where
  head : id.head? = some 'R'
  long : 14 < id.length
  dash : '-' ∉ id

theorem WfUid.listed {id : List Char} (h : WfUid id) : ListedId id := ⟨h.head, h.long, h.dash⟩

theorem idsText_cons (id : List Char) (ids : List (List Char)) :
    idsText (id :: ids) = id ++ '-' :: idsText ids := by
  simp [idsText]

variable {id : List Char} {ids : List (List Char)}

theorem not_mem_idsText {c : Char} (hc : c ≠ '-') (h : ∀ id ∈ ids, c ∉ id) : c ∉ idsText ids := by
  simp only [idsText, mem_flatMap, mem_append, mem_singleton, not_exists, not_and,
    not_or]
  exact fun id hid => ⟨h id hid, hc⟩

theorem length_idsText (ids : List (List Char)) :
    (idsText ids).length = (ids.map fun id => id.length + 1).sum := by
  simp [idsText, length_flatMap]

theorem le_length_idsText (h : ∀ id ∈ ids, ListedId id) : 16 * ids.length ≤ (idsText ids).length := by
  induction ids with
  | nil => simp
  | cons id ids ih =>
    have hlong := (h id mem_cons_self).long
    have hrest := ih fun x hx => h x (mem_cons_of_mem _ hx)
    simp only [idsText_cons, length_append, length_cons]
    omega

theorem payloadString_eq_none {payload : List Char} (h : '\x00' ∉ payload) :
    payloadString payload = none := by
  have hall : ∀ c ∈ payload, decide (c ≠ '\x00') = true :=
    fun c hc => decide_eq_true fun hnul => h (hnul ▸ hc)
  have htake := Str.takeWhile_of_stops (p := fun c => decide (c ≠ '\x00')) hall (Str.stops_nil _)
  rw [append_nil] at htake
  rw [payloadString, htake, Str.stored_length]

/-- The end of every list that is scanned is written behind the array. -/
theorem numberOfBundles_eq (l : List Char) :
    numberOfBundles l = if l.length > 12 then none else some 0 := by
  rw [numberOfBundles, Str.stored_length]
  rfl

theorem numberOfBundles_idsText (h : ∀ id ∈ ids, ListedId id) (hne : ids ≠ []) (tail : List Char) :
    numberOfBundles (idsText ids ++ tail) = none := by
  have hlen := le_length_idsText h
  have hpos := length_pos_iff.2 hne
  rw [numberOfBundles_eq, if_pos (by rw [length_append]; omega)]

end EpidemicRouting

open Str

namespace EpidemicRouting

/-- A bundle as the routing sees it: `u_id` and the records that `src` and `dest` name. -/
structure RoutedBundle where
  src : List Char
  destRegion : List Char
  dest : List Char
  uId : ℤ
deriving DecidableEq

structure BundleStore where
  id : List Char
  b : RoutedBundle
  enableSprying : ℤ

/-- A `DTNAgent` with its bundle manager and its buffer. -/
structure Agent where
  region : List Char
  name : List Char
  rule : ℕ
  activateRouting : ℤ
  antiPacketMechanism : ℤ
  schedulingType : ℤ
  maxBundlesInLocalBuffer : ℤ
  neighbors : List (List Char)
  bids : List (List Char × ℤ)
  dbMap : List (List Char)
  bundleStoreList : List BundleStore

/-- What the session calls: the drop policies, the delivery of a bundle, the metrics of the
scheduling types, and the buffer of `send_bundles_list` before it is set. -/
structure Callees where
  dropPolicie : Agent → RoutedBundle → Agent
  localDelivery : Agent → RoutedBundle → Agent
  metric : ℤ → Agent → RoutedBundle → ℚ
  currentId : Agent → List Char → ℕ → Char

/-- A control bundle: the sender's name, region and endpoint id, and the payload. -/
structure Control where
  me : List Char
  region : List Char
  src : List Char
  payload : List Char

/-- The bundles under way, by conversation. -/
inductive Packet where
  | c1 (b : Control)
  | c2 (b : Control)
  | c3 (b : Control)
  | data (b : RoutedBundle)

def minMessageLength : ℕ := 5

/-- Two records as `getRecords` joins them. -/
def records (one two : List Char) : List Char := one ++ ',' :: two

def endpoint (region name : List Char) : List Char := records region (name ++ [':', '0'])

def Agent.agentEndpoint (nd : Agent) : List Char := endpoint nd.region nd.name

def Agent.newBundle (nd : Agent) (payload : List Char) : Control :=
  ⟨nd.name, nd.region, nd.agentEndpoint, payload⟩

def getBundleIdUid (b : RoutedBundle) : List Char := b.src ++ 'r' :: showInt b.uId

def existId (id : List Char) (uId : ℤ) (nd : Agent) : Option BundleStore :=
  nd.bundleStoreList.find? fun s => s.id = if uId ≠ -1 then id ++ 'r' :: showInt uId else id

/-- The bundles of the buffer that are offered to `dest`. -/
def offered (dest : List Char) (nd : Agent) : List BundleStore :=
  nd.bundleStoreList.filter fun s =>
    nd.activateRouting = 1 ∨ nd.activateRouting = 2 ∧
      (s.enableSprying = 1 ∨ records s.b.destRegion s.b.dest = dest)

def lengthOfLocalList (dest : List Char) (nd : Agent) : ℕ :=
  ((offered dest nd).map fun s => s.id.length + 1).sum

def bundlesIdList (dest : List Char) (nd : Agent) : List Char :=
  if nd.bundleStoreList.length > 0 then idsText ((offered dest nd).map BundleStore.id) else []

/-- Neither delivered nor in the buffer; `none` is a null pointer. -/
def isWanted (nd : Agent) (id : List Char) : Option Bool :=
  (find 'r' id).map fun pos =>
    (id.take pos, atoi (id.drop (pos + 1))) ∉ nd.bids ∧
      ¬ (nd.antiPacketMechanism = 1 ∧ id ∈ nd.dbMap) ∧ ∀ s ∈ nd.bundleStoreList, s.id ≠ id

def wantedBundles (nd : Agent) : List (List Char) → Option (List (List Char))
  | [] => some []
  | id :: ids => (isWanted nd id).bind fun wanted =>
    (wantedBundles nd ids).map fun l => if wanted then id :: l else l

/-- `listw` has no place for the end of the list. -/
def listDiff (recv : List Char) (nd : Agent) : Option (List Char) := do
  let nr ← numberOfBundles recv
  let ids ← if nr > 0 then receivedIds nr recv [] [] else some []
  if ids.length > 0 then
    let wanted ← wantedBundles nd ids
    stored (idsText wanted).length (idsText wanted)
  else some (if nd.bundleStoreList.length > 0 then bundlesIdList [] nd else [])

section

variable (metric : List Char → Option ℚ)

/-- One row of the scheduling: the first place is swapped with every one behind it whose
metric is over `m`. -/
def arrangeRow (m : ℚ) : List Char → List (List Char) → List Char × List (List Char)
  | x, [] => (x, [])
  | x, y :: table =>
    if (metric y).any fun c => c > m then
      let r := arrangeRow m y table
      (r.1, x :: r.2)
    else
      let r := arrangeRow m x table
      (r.1, y :: r.2)

def arrange : ℕ → List (List Char) → List (List Char)
  | n + 1, x :: table =>
    match metric x with
    | some m =>
      let r := arrangeRow metric m x table
      r.1 :: arrange n r.2
    | none => x :: arrange n table
  | _, table => table

/-- The scheduling by a metric; `none` reads past the end of the table. -/
def arrangeBundlesToSend (table : List (List Char)) (tableLength : ℕ) :
    Option (List (List Char)) :=
  if tableLength > table.length then none
  else some (arrange metric tableLength (table.take tableLength) ++ table.drop tableLength)

end

/-- The bundle is for the neighbor itself. -/
def isDirect (dest : List Char) (nd : Agent) (id : List Char) : Bool :=
  (existId id (-1) nd).any fun s => records s.b.destRegion s.b.dest = dest

/-- The bundles sent, those for the neighbor first. -/
def sendBundlesList (callees : Callees) (listToSend dest : List Char) (nd : Agent) :
    Option (List RoutedBundle) := do
  let bts ← numberOfBundles listToSend
  let ids := scanIds listToSend (callees.currentId nd listToSend) 0
  if bts ≠ 0 ∧ ids.length > 0 then
    let ids ←
      if bts > 1 ∧ 1 ≤ nd.schedulingType ∧ nd.schedulingType ≤ 6 then
        arrangeBundlesToSend (fun id => (existId id (-1) nd).map fun s =>
          callees.metric nd.schedulingType nd s.b) ids bts
      else some ids
    let ids := ids.filter fun id => id.length > 0
    some (((ids.filter (isDirect dest nd)) ++ ids.filter fun id => !isDirect dest nd id).filterMap
      fun id => (existId id (-1) nd).map BundleStore.b)
  else some []

/-- The endpoint id of a neighbor, which is put together in arrays of 15 and 30 characters. -/
def neighborEndpoint (region name : List Char) : Option (List Char) := do
  let id ← stored 15 name
  stored 30 (endpoint region id)

def initSession (id r : List Char) (nd : Agent) : Option (List Packet) := do
  let dest ← stored 30 (endpoint r id)
  some (
    if lengthOfLocalList dest nd = 0 then [.c1 (nd.newBundle [])]
    else if (bundlesIdList dest nd).length > minMessageLength then
      [.c1 (nd.newBundle (bundlesIdList dest nd))]
    else [])

def recvC1 (b : Control) (nd : Agent) : Option (List Packet) :=
  if b.me ∉ nd.neighbors then some []
  else do
    let dest ← neighborEndpoint b.region b.me
    let datab ← payloadString b.payload
    let lDifference ← listDiff datab nd
    let lengthOfLocalList := lengthOfLocalList dest nd
    let strLocalList := bundlesIdList dest nd
    let lw := lDifference.length
    if lw ≠ 0 ∧ datab.length ≠ 0 ∧ lengthOfLocalList > 0 then
      let tl := lw + lengthOfLocalList + 1
      let ll ← stored lengthOfLocalList strLocalList
      let _ ← numberOfBundles lDifference
      let data ← stored tl (ll ++ '*' :: lDifference)
      some (if tl > minMessageLength then [.c2 (nd.newBundle data)] else [])
    else if lengthOfLocalList ≠ 0 then
      let tl := lengthOfLocalList + 1
      let ll ← stored lengthOfLocalList strLocalList
      let data ← stored tl (ll ++ ['*'])
      some (if tl > minMessageLength then [.c2 (nd.newBundle data)] else [])
    else some [.c2 (nd.newBundle ['*'])]

/-- `none` is a null pointer too. -/
def recvC2 (callees : Callees) (b : Control) (nd : Agent) : Option (List Packet) :=
  if b.me ∉ nd.neighbors then some []
  else do
    let payload ← payloadString b.payload
    let datab ← stored b.payload.length (payload ++ ['-'])
    let pos ← find '*' datab
    let s := datab.drop pos
    let r := (find 'R' s).map fun pos => s.drop pos
    let n := (r.map List.length).getD 1
    let whatHeOffer ← stored (datab.length - n - 1) (datab.take (datab.length - n - 1))
    let lDifference ← listDiff whatHeOffer nd
    let _ ← neighborEndpoint b.region b.me
    let lw := lDifference.length
    let asked ←
      if lw > 0 then do
        let whatIWant ← stored lw (lDifference ++ ['-'])
        let _ ← numberOfBundles whatIWant
        some (if lw > minMessageLength then [.c3 (nd.newBundle whatIWant)] else [])
      else some []
    match r with
    | none => some asked
    | some r =>
      let whatHeWant ← stored r.length (r.take (r.length - 1) ++ ['-'])
      let sent ← sendBundlesList callees whatHeWant b.src nd
      some (asked ++ sent.map .data)

def recvC3 (callees : Callees) (b : Control) (nd : Agent) : Option (List Packet) :=
  if b.me ∉ nd.neighbors then some []
  else do
    let _ ← neighborEndpoint b.region b.me
    let datab ← payloadString b.payload
    if datab.length > 0 then
      let sent ← sendBundlesList callees datab b.src nd
      some (sent.map .data)
    else some []

def addBundle (callees : Callees) (b : RoutedBundle) (nd : Agent) : Agent :=
  if (existId b.src b.uId nd).isNone then
    if nd.bundleStoreList.length < nd.maxBundlesInLocalBuffer then
      { nd with bundleStoreList := nd.bundleStoreList ++ [⟨getBundleIdUid b, b, 1⟩] }
    else callees.dropPolicie nd b
  else nd

/-- The bundle has arrived. -/
def isLocal (nd : Agent) (b : RoutedBundle) : Bool :=
  nd.region = b.destRegion ∧ nd.name <+: b.dest ∧ b.dest[nd.name.length]? = some ':'

/-- What the bundle manager does with a packet. -/
def recvPacket (callees : Callees) (nd : Agent) : Packet → Option (Agent × List Packet)
  | .c1 b => (recvC1 b nd).map fun out => (nd, out)
  | .c2 b => (recvC2 callees b nd).map fun out => (nd, out)
  | .c3 b => (recvC3 callees b nd).map fun out => (nd, out)
  | .data b =>
    some (if isLocal nd b then callees.localDelivery nd b else addBundle callees b nd, [])

end EpidemicRouting

end Ns2
