import Ns2.Dtn.Epidemic

/-! What the handlers of the session make of well-formed buffers: the first list is sent as it is, and no
list is read, since the arrays for it have no place for its end. -/

namespace Ns2

open Str List

namespace EpidemicRouting

def Agent.ids (nd : Agent) : List (List Char) := nd.bundleStoreList.map BundleStore.id

/-- A bundle with the id that the code builds for it. -/
structure WfBundle (b : RoutedBundle) : Prop where
  uid : WfUid (getBundleIdUid b)
  uId : b.uId ≠ -1

/-- An agent that offers all its bundles, has each of them once, and knows of no delivery. -/
structure WfAgent (nd : Agent) : Prop where
  routing : nd.activateRouting = 1
  bids : nd.bids = []
  dbMap : nd.dbMap = []
  nodup : nd.ids.Nodup
  stored : ∀ s ∈ nd.bundleStoreList, s.id = getBundleIdUid s.b ∧ WfBundle s.b

section

variable {nd : Agent} (h : WfAgent nd)

include h

theorem WfAgent.uids : ∀ id ∈ nd.ids, WfUid id := by
  intro id hid
  obtain ⟨s, hs, rfl⟩ := mem_map.1 hid
  obtain ⟨hs, hb⟩ := h.stored s hs
  exact hs ▸ hb.uid

theorem WfAgent.offered_eq (dest : List Char) : offered dest nd = nd.bundleStoreList := by
  rw [offered, filter_eq_self]
  intro s _
  exact decide_eq_true (Or.inl h.routing)

theorem WfAgent.bundlesIdList_eq (dest : List Char) : bundlesIdList dest nd = idsText nd.ids := by
  rw [bundlesIdList, h.offered_eq]
  split_ifs with hpos
  · rfl
  · have hnil : nd.bundleStoreList = [] := eq_nil_of_length_eq_zero (by omega)
    rw [Agent.ids, hnil]
    rfl

theorem WfAgent.lengthOfLocalList_eq (dest : List Char) :
    lengthOfLocalList dest nd = (idsText nd.ids).length := by
  rw [lengthOfLocalList, h.offered_eq, length_idsText, Agent.ids, map_map]
  rfl

end

variable {ids : List (List Char)} {b : Control}

theorem existId_eq_none {nd : Agent} {id : List Char} :
    existId id (-1) nd = none ↔ id ∉ nd.ids := by
  simp [existId, Agent.ids]

theorem minMessageLength_lt (hids : ∀ id ∈ ids, WfUid id) (hne : ids ≠ []) :
    minMessageLength < (idsText ids).length := by
  have hlen := le_length_idsText fun id hid => (hids id hid).listed
  have hpos := length_pos_iff.2 hne
  rw [minMessageLength]
  omega

/-- The session is opened with the list of all bundles. -/
theorem WfAgent.initSession_eq {nd : Agent} (h : WfAgent nd) {id r : List Char} {out : List Packet}
    (hinit : initSession id r nd = some out) : out = [.c1 (nd.newBundle (idsText nd.ids))] := by
  obtain ⟨dest, -, hout⟩ := Option.bind_eq_some_iff.1 hinit
  rw [h.lengthOfLocalList_eq, h.bundlesIdList_eq] at hout
  obtain rfl := Option.some.inj hout
  by_cases hnil : nd.ids = []
  · rw [hnil]
    rfl
  · have hlen := minMessageLength_lt h.uids hnil
    rw [if_neg (by omega), if_pos hlen]

/-- No control bundle of a neighbor is read, since its payload has no end in it. -/
theorem recvPacket_eq_none (callees : Callees) {nd : Agent} (hb : b.me ∈ nd.neighbors)
    (hnul : '\x00' ∉ b.payload) {packet : Packet} (hpacket : packet ∈ [.c1 b, .c2 b, .c3 b]) :
    recvPacket callees nd packet = none := by
  have hnone := payloadString_eq_none hnul
  simp only [mem_cons, not_mem_nil, or_false] at hpacket
  rcases hpacket with rfl | rfl | rfl
  · rw [recvPacket, recvC1, if_neg (not_not.2 hb), hnone]
    cases neighborEndpoint b.region b.me <;> rfl
  · rw [recvPacket, recvC2, if_neg (not_not.2 hb), hnone]
    rfl
  · rw [recvPacket, recvC3, if_neg (not_not.2 hb), hnone]
    cases neighborEndpoint b.region b.me <;> rfl

theorem WfAgent.nul_not_mem {nd : Agent} (h : WfAgent nd) : '\x00' ∉ idsText nd.ids :=
  not_mem_idsText (by decide) fun id hid => (h.uids id hid).nul

end EpidemicRouting

end Ns2
