import Ns2.Dtn.BufferInvariant

/-! Antipackets: an agent with its buffer and the list of the bundles known to be delivered,
`dbl_`, which the request for bundles consults and the arrival of a bundle does not. -/

namespace Ns2

open Str

namespace EpidemicRouting

/-- An entry of `bids_`. -/
structure BundleId where
  source : List Char
  uId : ℤ
  timestamp : ℚ
  exptime : ℚ
  lifespan : ℚ

/-- `registered` are the endpoints of the registrations. -/
structure Node where
  region : List Char
  name : List Char
  rule : ℕ
  activateRouting : ℤ
  schedulingType : ℤ
  neighbors : List (List Char)
  registered : List (List Char)
  bids : List BundleId
  dbMap : List (List Char)
  buffer : Buffer

/-- What arrives. A data bundle comes with the utilities, what `defragment` makes of it and a draw. -/
inductive Arrival (V : Type*) where
  | c1 (b : Control)
  | c2 (b : Control)
  | c3 (b : Control)
  | data (U : Utilities V) (b : TimedBundle) (whole : Option TimedBundle) (now draw : ℚ)
  | antiPacket (payload : List Char)

/-- The length of an id in a list; `none` is a null pointer or a read behind the text. -/
def idLength (list : List Char) (id : ℕ) : Option ℤ :=
  (numberOfBundles list).bind fun number =>
    if id ≤ number then
      if id = 1 then (find '-' list).map fun pos => (pos : ℤ)
      else (find '-' list).bind fun pos => (find '-' (list.drop (pos + 1))).map fun l => (l : ℤ)
    else some (-1)

/-- `resize` to the length of an id and `clear`; a negative length throws. -/
def resized (list : List Char) (id : ℕ) : Option (List Char) :=
  (idLength list id).bind fun l => if l < 0 then none else some []

/-- The loop over a received list. `current_id` is not cleared behind a short id. -/
def delivredIds (recv : List Char) (nr : ℕ) :
    List Char → List Char → List (List Char) → Option (List (List Char))
  | [], _, ids => some ids
  | c :: l, currentId, ids =>
    if c ≠ '-' then delivredIds recv nr l (currentId ++ [c]) ids
    else if currentId.length > 14 then
      if ids.length + 1 < nr then
        (resized recv (ids.length + 2)).bind fun cleared =>
          delivredIds recv nr l cleared (ids ++ [currentId])
      else delivredIds recv nr l currentId (ids ++ [currentId])
    else delivredIds recv nr l currentId ids

def addDelivredBundle (dbMap : List (List Char)) (bid : List Char) : List (List Char) :=
  if bid ∈ dbMap then dbMap else dbMap ++ [bid]

/-- The list with the received ids, and whether it was updated. -/
def updateDelivredBundlesList (recv : List Char) (dbMap : List (List Char)) :
    Option (List (List Char) × Bool) :=
  (numberOfBundles recv).bind fun nr =>
    (if nr > 0 then (resized recv 1).bind fun cleared => delivredIds recv nr recv cleared []
      else some []).map fun ids =>
        if ids.length > 0 then (ids.foldl addDelivredBundle dbMap, true) else (dbMap, false)

/-- The loop over `bids_`: expired entries go until the bundle is found. -/
def scanBids (source : List Char) (uId : ℤ) (now : ℚ) : List BundleId → List BundleId × Bool
  | [] => ([], false)
  | bid :: bids =>
    let bid := { bid with
      lifespan := bid.lifespan + (now - bid.timestamp)
      timestamp := now }
    if bid.lifespan > bid.exptime then scanBids source uId now bids
    else if uId = bid.uId ∧ source = bid.source then (bid :: bids, true)
    else
      let r := scanBids source uId now bids
      (bid :: r.1, r.2)

namespace Node

/-- The agent as the session sees it. -/
def agent (nd : Node) : Agent where
  region := nd.region
  name := nd.name
  rule := nd.rule
  activateRouting := nd.activateRouting
  antiPacketMechanism := nd.buffer.antiPacketMechanism
  schedulingType := nd.schedulingType
  maxBundlesInLocalBuffer := nd.buffer.maxBundlesInLocalBuffer
  neighbors := nd.neighbors
  bids := nd.bids.map fun bid => (bid.source, bid.uId)
  dbMap := nd.dbMap
  bundleStoreList := nd.buffer.bundleStoreList.map fun x =>
    ⟨x.id, x.b.toRoutedBundle, x.enableSprying⟩

/-- A bundle for a registered endpoint that is not in `bids_`. -/
def isNew (b : TimedBundle) (now : ℚ) (nd : Node) : Bool :=
  records b.destRegion b.dest ∈ nd.registered ∧ (scanBids b.src b.uId now nd.bids).2 = false

/-- The uid that becomes known is that of `b`, before it is put together. -/
def localDelivery (b : TimedBundle) (whole : Option TimedBundle) (now : ℚ) (nd : Node) : Node :=
  match whole with
  | none => nd
  | some w =>
    if records w.destRegion w.dest ∈ nd.registered then
      let r := scanBids w.src w.uId now nd.bids
      if r.2 then { nd with bids := r.1 }
      else { nd with
        bids := r.1 ++ [⟨w.src, w.uId, now, w.expTime * 100, 0⟩]
        dbMap :=
          if nd.buffer.antiPacketMechanism = 1 then
            addDelivredBundle nd.dbMap (getBundleIdUid b.toRoutedBundle)
          else nd.dbMap }
    else nd

/-- An end is put behind the array, which has the length of the payload. -/
def recvAntiPacket (payload : List Char) (nd : Node) : Option Node :=
  if nd.buffer.antiPacketMechanism = 1 then
    (stored payload.length payload).bind fun datab =>
      (updateDelivredBundlesList (datab.takeWhile fun c => c ≠ '\x00') nd.dbMap).map fun r =>
        { nd with
          dbMap := r.1
          buffer := if r.2 then nd.buffer.deleteDelivredBundles r.1 else nd.buffer }
  else some nd

variable {V : Type*} (callees : Callees)

/-- What the bundle manager does with what arrives, and what it sends. -/
def recv (nd : Node) : Arrival V → Option (Node × List Packet)
  | .c1 b => (recvC1 b nd.agent).map fun out => (nd, out)
  | .c2 b => (recvC2 callees b nd.agent).map fun out => (nd, out)
  | .c3 b => (recvC3 callees b nd.agent).map fun out => (nd, out)
  | .data U b whole now draw =>
    if isLocal nd.agent b.toRoutedBundle then some (nd.localDelivery b whole now, [])
    else (nd.buffer.addBundle U b now draw).map fun r => ({ nd with buffer := r.1 }, [])
  | .antiPacket payload => (nd.recvAntiPacket payload).map fun nd => (nd, [])

def machine : Machine Node (Arrival V) (List Packet) := ⟨recv callees⟩

/-- No stored bundle is known to be delivered. -/
def DeliveredOut (nd : Node) : Prop := ∀ x ∈ nd.buffer.bundleStoreList, x.uid ∉ nd.dbMap

/-- A bundle for others is not known to be delivered, and one that becomes known to be
delivered here is not stored. -/
def Undelivered (nd : Node) : Arrival V → Prop
  | .data _ b whole now _ =>
    if isLocal nd.agent b.toRoutedBundle then
      ∀ w, whole = some w → nd.isNew w now = true →
        ∀ x ∈ nd.buffer.bundleStoreList, x.uid ≠ getBundleIdUid b.toRoutedBundle
    else getBundleIdUid b.toRoutedBundle ∉ nd.dbMap
  | _ => True

instance decidableUndelivered : ∀ (nd : Node) (e : Arrival V), Decidable (nd.Undelivered e)
  | nd, .data _ b whole now _ => inferInstanceAs (Decidable
      (if isLocal nd.agent b.toRoutedBundle then
        ∀ w ∈ whole, nd.isNew w now = true →
          ∀ x ∈ nd.buffer.bundleStoreList, x.uid ≠ getBundleIdUid b.toRoutedBundle
      else getBundleIdUid b.toRoutedBundle ∉ nd.dbMap))
  | _, .c1 _ | _, .c2 _ | _, .c3 _ | _, .antiPacket _ => inferInstanceAs (Decidable True)

/-- The mechanism is on, the counter is right, and the delivered bundles are out. -/
structure Guarded (nd : Node) : Prop where
  on : nd.buffer.antiPacketMechanism = 1
  count : nd.buffer.numberOfBufferedBundles = nd.buffer.bundleStoreList.length
  out : nd.DeliveredOut

end Node

theorem mem_addDelivredBundle {dbMap : List (List Char)} {bid id : List Char} :
    id ∈ addDelivredBundle dbMap bid ↔ id ∈ dbMap ∨ id = bid := by
  rw [addDelivredBundle]
  split_ifs with h
  · constructor
    · exact Or.inl
    · rintro (hid | rfl)
      · exact hid
      · exact h
  · simp

namespace Buffer

variable {s s' : Buffer}

theorem deleteDelivredBundles_out (hon : s.antiPacketMechanism = 1)
    (hcount : s.numberOfBufferedBundles = s.bundleStoreList.length) (dbMap : List (List Char)) :
    ∀ x ∈ (s.deleteDelivredBundles dbMap).bundleStoreList, x.uid ∉ dbMap := by
  intro x hx
  rw [deleteDelivredBundles] at hx
  split_ifs at hx with h
  · rw [eraseLoop_eq] at hx
    obtain ⟨y, -, hy⟩ := List.mem_filterMap.1 hx
    obtain ⟨hout, heq⟩ := Option.ite_none_left_eq_some.1 hy
    obtain rfl := Option.some.inj heq
    exact hout
  · have hnil : s.bundleStoreList = [] := by
      apply List.eq_nil_of_length_eq_zero
      have : ¬ s.numberOfBufferedBundles > 0 := fun hpos => h ⟨hon, hpos⟩
      omega
    rw [hnil] at hx
    cases hx

theorem deleteDelivredBundles_count
    (hcount : s.numberOfBufferedBundles = s.bundleStoreList.length) (dbMap : List (List Char)) :
    (s.deleteDelivredBundles dbMap).numberOfBufferedBundles =
      (s.deleteDelivredBundles dbMap).bundleStoreList.length := by
  rw [deleteDelivredBundles]
  split_ifs
  · rw [eraseLoop_eq]
    dsimp only
    omega
  · exact hcount

@[simp] theorem deleteDelivredBundles_mechanism (s : Buffer) (dbMap : List (List Char)) :
    (s.deleteDelivredBundles dbMap).antiPacketMechanism = s.antiPacketMechanism := by
  rw [deleteDelivredBundles]
  split_ifs <;> rfl

variable {V : Type*} {U : Utilities V} {b : TimedBundle} {now draw : ℚ} {a : ℤ}

theorem addBundle_mechanism (h : s.addBundle U b now draw = some (s', a)) :
    s'.antiPacketMechanism = s.antiPacketMechanism := by
  rcases addBundle_cases h with rfl | ⟨-, -, rfl⟩ | ⟨-, -, p, hp⟩
  · rfl
  · rfl
  · rw [(replace_eq hp).2]

theorem addBundle_count (hcount : s.numberOfBufferedBundles = s.bundleStoreList.length)
    (h : s.addBundle U b now draw = some (s', a)) :
    s'.numberOfBufferedBundles = s'.bundleStoreList.length := by
  rcases addBundle_cases h with rfl | ⟨-, -, rfl⟩ | ⟨-, -, p, hp⟩
  · exact hcount
  · simp [pushBack, hcount]
  · obtain ⟨hlt, rfl⟩ := replace_eq hp
    simp only [List.length_append, List.length_eraseIdx_of_lt hlt, List.length_singleton, hcount]
    omega

theorem addBundle_mem (h : s.addBundle U b now draw = some (s', a)) {x : StoredBundle}
    (hx : x ∈ s'.bundleStoreList) :
    x ∈ s.bundleStoreList ∨ x.uid = getBundleIdUid b.toRoutedBundle := by
  rcases addBundle_cases h with rfl | ⟨-, -, rfl⟩ | ⟨-, -, p, hp⟩
  · exact Or.inl hx
  · refine (List.mem_append.1 hx).imp_right fun hx => ?_
    rw [List.mem_singleton.1 hx, StoredBundle.uid, newStore, countHop_toRoutedBundle]
  · rw [(replace_eq hp).2] at hx
    rcases List.mem_append.1 hx with hx | hx
    · exact Or.inl (List.mem_of_mem_eraseIdx hx)
    · rw [List.mem_singleton.1 hx]
      exact Or.inr rfl

end Buffer

namespace Node

variable {V : Type*} {U : Utilities V} {callees : Callees} {nd nd' : Node}

theorem Guarded.localDelivery (h : nd.Guarded) {b : TimedBundle} {whole : Option TimedBundle}
    {now : ℚ} (hnew : ∀ w, whole = some w → nd.isNew w now = true →
      ∀ x ∈ nd.buffer.bundleStoreList, x.uid ≠ getBundleIdUid b.toRoutedBundle) :
    (nd.localDelivery b whole now).Guarded := by
  cases whole with
  | none => exact h
  | some w =>
    rw [Node.localDelivery]
    dsimp only
    split_ifs with hreg hfound hon
    · exact ⟨h.on, h.count, h.out⟩
    · refine ⟨h.on, h.count, fun x hx hmem => ?_⟩
      rcases mem_addDelivredBundle.1 hmem with hmem | heq
      · exact h.out x hx hmem
      · exact hnew w rfl (by simp [isNew, hreg, hfound]) x hx heq
    · exact absurd h.on hon
    · exact h

theorem Guarded.recvAntiPacket (h : nd.Guarded) {payload : List Char}
    (hrecv : nd.recvAntiPacket payload = some nd') : nd'.Guarded := by
  rw [Node.recvAntiPacket, if_pos h.on] at hrecv
  obtain ⟨datab, -, hrecv⟩ := Option.bind_eq_some_iff.1 hrecv
  obtain ⟨⟨dbMap, updated⟩, hr, rfl⟩ := Option.map_eq_some_iff.1 hrecv
  cases updated with
  | true =>
    exact ⟨(Buffer.deleteDelivredBundles_mechanism _ _).trans h.on,
      Buffer.deleteDelivredBundles_count h.count _,
      Buffer.deleteDelivredBundles_out h.on h.count _⟩
  | false =>
    obtain ⟨nr, -, hr⟩ := Option.bind_eq_some_iff.1 hr
    obtain ⟨ids, -, hids⟩ := Option.map_eq_some_iff.1 hr
    split_ifs at hids
    · cases (Prod.mk.inj hids).2
    · obtain ⟨rfl, -⟩ := Prod.mk.inj hids
      exact ⟨h.on, h.count, h.out⟩

theorem Guarded.addBundle (h : nd.Guarded) {b : TimedBundle} {now draw : ℚ} {s' : Buffer} {a : ℤ}
    (hnew : getBundleIdUid b.toRoutedBundle ∉ nd.dbMap)
    (hadd : nd.buffer.addBundle U b now draw = some (s', a)) :
    ({ nd with buffer := s' } : Node).Guarded := by
  refine ⟨(Buffer.addBundle_mechanism hadd).trans h.on, Buffer.addBundle_count h.count hadd, ?_⟩
  intro x hx
  rcases Buffer.addBundle_mem hadd hx with hx | heq
  · exact h.out x hx
  · rw [heq]
    exact hnew

theorem Guarded.recv (h : nd.Guarded) {e : Arrival V} (he : nd.Undelivered e) {out : List Packet}
    (hrecv : nd.recv callees e = some (nd', out)) : nd'.Guarded := by
  cases e with
  | c1 b | c2 b | c3 b =>
    obtain ⟨r, -, heq⟩ := Option.map_eq_some_iff.1 hrecv
    obtain ⟨rfl, -⟩ := Prod.mk.inj heq
    exact h
  | data U b whole now draw =>
    rw [Node.recv] at hrecv
    rw [Undelivered] at he
    by_cases hlocal : isLocal nd.agent b.toRoutedBundle = true
    · rw [if_pos hlocal] at hrecv he
      obtain ⟨rfl, -⟩ := Prod.mk.inj (Option.some.inj hrecv)
      exact h.localDelivery he
    · rw [if_neg hlocal] at hrecv he
      obtain ⟨r, hr, heq⟩ := Option.map_eq_some_iff.1 hrecv
      obtain ⟨rfl, -⟩ := Prod.mk.inj heq
      exact h.addBundle he hr
  | antiPacket payload =>
    obtain ⟨r, hr, heq⟩ := Option.map_eq_some_iff.1 hrecv
    obtain ⟨rfl, -⟩ := Prod.mk.inj heq
    exact h.recvAntiPacket hr

def idle : Callees := ⟨fun nd _ => nd, fun nd _ => nd, fun _ _ _ => 0, fun _ _ _ => '\x00'⟩

/-- The uid of bundle `u` of the agent `n3`. -/
def uidOfThree (u : Char) : List Char :=
  ['R', 'E', 'G', 'I', 'O', 'N', '1', ',', 'n', '3', ':', '0', 'r', '1', u]

def arrives (b : TimedBundle) (whole : Option TimedBundle) (now : ℚ) : Arrival Unit :=
  .data Buffer.sameUtility b whole now 0

end Node

end EpidemicRouting

end Ns2
