import Ns2.Dtn.StatReceive

/-! The full push: the matrix that `get_stat_to_send` writes is the one that
`update_network_stat` builds from it, if the array of a node id has a byte for its end. In the
code it has none, and a matrix is read only as long as no node is in it. -/

namespace Ns2

open Str List

namespace NetworkStat

/-- A matrix whose messages and nodes have well-formed ids and records. -/
structure WfStat (ns : NetworkStat) : Prop where
  ids : ∀ id m, ns.messagesMatrix.find id = some m → m.bundleId = id ∧ WfId id
  nodes : ∀ id m, ns.messagesMatrix.find id = some m → ∀ nodeId n,
    m.mapNodes.find nodeId = some n → WfId nodeId ∧ WfNode ns.axeLength n

variable {ns : NetworkStat}

theorem WfStat.wfNodes (h : ns.WfStat) {id : List Char} {m : Message}
    (hm : ns.messagesMatrix.find id = some m) {p : List Char × StatNode → Bool} :
    WfNodes ns.axeLength (m.mapNodes.entries.filter p) := by
  refine ⟨fun e he => ?_, fun e he => ?_, ?_⟩
  · exact (h.nodes id m hm e.1 e.2 (OrdMap.mem_entries.1 (mem_of_mem_filter he))).1
  · exact (h.nodes id m hm e.1 e.2 (OrdMap.mem_entries.1 (mem_of_mem_filter he))).2
  · exact m.mapNodes.nodup_keys.sublist (filter_sublist.map _)

section

variable {axeLength : ℕ} {text : List Char → StatNode → List Char} {selected : List Char → Bool}
variable {nodes : List (List Char × StatNode)}

theorem describeNodes_false (text : List Char → StatNode → List Char) (selected : List Char → Bool)
    (hids : ∀ e ∈ nodes, e.1 ≠ []) (hle : ∀ e ∈ nodes, e.2.statVersion ≤ axeLength) :
    describeNodes axeLength text selected false nodes = some
      (((nodes.filter fun e => selected e.1).map fun e => text e.1 e.2).flatMap
        fun t => '$' :: t) := by
  induction nodes with
  | nil => rfl
  | cons e nodes ih =>
    have ih := ih (fun x hx => hids x (mem_cons_of_mem _ hx))
      fun x hx => hle x (mem_cons_of_mem _ hx)
    have hversion : ¬ e.2.statVersion > axeLength := not_lt.2 (hle e mem_cons_self)
    rw [describeNodes, if_neg (hids e mem_cons_self)]
    by_cases hsel : selected e.1 = true
    · rw [if_pos hsel, if_neg hversion, ih, filter_cons_of_pos (by exact hsel)]
      rfl
    · rw [if_neg hsel, ih, filter_cons_of_neg (by exact hsel)]

/-- The first node of the map has none; when it is not selected, the text starts with the
`$` of the next one. -/
theorem describeNodes_true {e : List Char × StatNode} (hids : ∀ x ∈ e :: nodes, x.1 ≠ [])
    (hle : ∀ x ∈ e :: nodes, x.2.statVersion ≤ axeLength) :
    describeNodes axeLength text selected true (e :: nodes) = some
      (join '$' ((if selected e.1 then text e.1 e.2 else []) ::
        (nodes.filter fun x => selected x.1).map fun x => text x.1 x.2)) := by
  have hrest := describeNodes_false text selected
    (fun x hx => hids x (mem_cons_of_mem _ hx))
    fun x hx => hle x (mem_cons_of_mem _ hx)
  have hversion : ¬ e.2.statVersion > axeLength := not_lt.2 (hle e mem_cons_self)
  rw [describeNodes, if_neg (hids e mem_cons_self), join]
  by_cases hsel : selected e.1 = true
  · rw [if_pos hsel, if_neg hversion, hrest, if_pos hsel]
    rfl
  · rw [if_neg hsel, hrest, if_neg hsel]
    rfl

end

variable {entries : List (List Char × Message)}

theorem getDescription_eq {m : Message} (hnodes : WfNodes ns.axeLength m.mapNodes.entries) :
    ns.getDescription m = some (ns.messageText m m.mapNodes.entries) := by
  unfold getDescription describeMapNodes messageText
  cases hentries : m.mapNodes.entries with
  | nil => rfl
  | cons e nodes =>
    rw [hentries] at hnodes
    have hall : nodes.filter (fun _ => true) = nodes := filter_eq_self.2 fun _ _ => rfl
    rw [if_neg (cons_ne_nil _ _), if_neg (cons_ne_nil _ _),
      describeNodes_true (fun x hx => (hnodes.ids x hx).ne_nil)
        (fun x hx => (hnodes.wf x hx).version_le), if_pos rfl, hall]
    rfl

theorem getStatToSendFrom_false (h : ∀ e ∈ entries, WfNodes ns.axeLength e.2.mapNodes.entries) :
    ns.getStatToSendFrom false entries = some
      ((entries.map fun e => ns.messageText e.2 e.2.mapNodes.entries).flatMap
        fun t => '\\' :: t) := by
  induction entries with
  | nil => rfl
  | cons e entries ih =>
    rw [getStatToSendFrom, getDescription_eq (h e mem_cons_self), Option.bind_some,
      ih fun x hx => h x (mem_cons_of_mem _ hx)]
    rfl

theorem getStatToSendFrom_true (h : ∀ e ∈ entries, WfNodes ns.axeLength e.2.mapNodes.entries) :
    ns.getStatToSendFrom true entries = some
      (join '\\' (entries.map fun e => ns.messageText e.2 e.2.mapNodes.entries)) := by
  cases entries with
  | nil => rfl
  | cons e entries =>
    rw [getStatToSendFrom, getDescription_eq (h e mem_cons_self), Option.bind_some,
      getStatToSendFrom_false fun x hx => h x (mem_cons_of_mem _ hx)]
    rfl

/-- What the receiver keeps about a node is what the sender had. -/
structure SameNode (ns : NetworkStat) (nodeId : List Char) (n n' : StatNode) : Prop where
  statVersion : n'.statVersion = n.statVersion
  miStartIndex : n'.miStartIndex = n.miStartIndex
  bitMap : ∀ k : ℤ, 0 ≤ k → k < ns.axeLength → n'.bitMap k = n.bitMap k
  time : |n'.lastMeetingTime - ns.getNodeMeetingTime nodeId| ≤ 1 / 2000000

theorem Decodes.create {nodeId : List Char} {n : StatNode} {r : Report}
    (h : Decodes ns nodeId n r) : SameNode ns nodeId n (r.create ns.axeLength) := by
  have hrec := r.record_create ns.axeLength
  refine ⟨(congrArg Record.statVersion hrec).trans h.statVersion,
    (congrArg Record.miStartIndex hrec).trans h.miStartIndex, fun k hk hlt => ?_, ?_⟩
  · have hbit := congrFun (congrArg Record.bitMap hrec) k
    change (r.create ns.axeLength).bitMap k = if _ then r.bitMap k else 0 at hbit
    rw [hbit, if_pos ⟨hk, hlt⟩, h.bitMap k hk hlt]
  · have htime : (r.create ns.axeLength).lastMeetingTime = r.lm := by
      unfold Report.create StatNode.updateMiBitMap
      dsimp only
      split_ifs <;> rfl
    rw [htime]
    exact h.lm

/-- The messages that a full push sends. -/
def allMessages (ns : NetworkStat) : List (Message × List (List Char × StatNode)) :=
  ns.messagesMatrix.entries.map fun e => (e.2, e.2.mapNodes.entries)

theorem WfStat.entry (h : ns.WfStat) {e : List Char × Message}
    (he : e ∈ ns.messagesMatrix.entries) :
    e.2.bundleId = e.1 ∧ WfId e.1 ∧ WfNodes ns.axeLength e.2.mapNodes.entries := by
  have hfind : ns.messagesMatrix.find e.1 = some e.2 := OrdMap.mem_entries.1 he
  have hnodes := h.wfNodes hfind (p := fun _ => true)
  rw [filter_eq_self.2 fun _ _ => rfl] at hnodes
  exact ⟨(h.ids e.1 e.2 hfind).1, (h.ids e.1 e.2 hfind).2, hnodes⟩

theorem WfStat.wfText (h : ns.WfStat) : WfText ns ns.allMessages := by
  have hids : ns.allMessages.map (fun p => p.1.bundleId) =
      ns.messagesMatrix.entries.map Prod.fst := by
    rw [allMessages, map_map]
    exact map_congr_left fun e he => (h.entry he).1
  refine ⟨fun p hp => ?_, fun p hp => ?_, hids ▸ OrdMap.nodup_keys _⟩
  · obtain ⟨e, he, rfl⟩ := mem_map.1 hp
    exact (h.entry he).1 ▸ (h.entry he).2.1
  · obtain ⟨e, he, rfl⟩ := mem_map.1 hp
    exact (h.entry he).2.2

theorem getStatToSend_eq (h : ns.WfStat) (hne : ns.messagesMatrix.entries ≠ []) :
    ns.getStatToSend [] = some (ns.statText ns.allMessages) := by
  rw [getStatToSend, if_neg hne, getStatToSendFrom_true fun e he => (h.entry he).2.2, statText,
    allMessages, map_map]
  rfl

/-- The receiver has the messages of the sender afterwards, with the same nodes and the same
records, the times up to the decimals printed. -/
def PushCopies (room : ℕ) (S R : NetworkStat) : Prop :=
  ∃ text R', S.getStatToSend [] = some text ∧ R.updateNetworkStat room text = some R' ∧
    ∀ id, (S.messagesMatrix.find id = none → R'.messagesMatrix.find id = none) ∧
      ∀ m, S.messagesMatrix.find id = some m → ∃ m', R'.messagesMatrix.find id = some m' ∧
        |m'.ttl - m.ttl| ≤ 1 / 2000000 ∧
        ∀ nodeId, (m.mapNodes.find nodeId = none → m'.mapNodes.find nodeId = none) ∧
          ∀ n, m.mapNodes.find nodeId = some n → ∃ n', m'.mapNodes.find nodeId = some n' ∧
            SameNode S nodeId n n'

/-- One byte more for the id of a node is enough. -/
theorem push_copies_matrix {room : ℕ} {S R : NetworkStat} (hroom : ∀ id m,
      S.messagesMatrix.find id = some m → m.mapNodes.entries ≠ [] → 0 < room) (hS : S.WfStat)
    (hempty : R.messagesMatrix = OrdMap.empty) (haxe : R.axeLength = S.axeLength) :
    PushCopies room S R := by
  by_cases hne : S.messagesMatrix.entries = []
  · refine ⟨[], R, if_pos hne, rfl, fun id => ⟨fun _ => ?_, fun m hm => ?_⟩⟩
    · rw [hempty, OrdMap.find_empty]
    · have hmem := OrdMap.mem_entries.2 hm
      rw [hne] at hmem
      cases hmem
  · have hmsgs : S.allMessages ≠ [] := fun h => hne (map_eq_nil_iff.1 h)
    have hroom : ∀ p ∈ S.allMessages, p.2 ≠ [] → 0 < room := by
      intro p hp
      obtain ⟨e, he, rfl⟩ := mem_map.1 hp
      exact hroom e.1 e.2 (OrdMap.mem_entries.1 he)
    obtain ⟨R', hR', hfound, hother⟩ := updateNetworkStat_statText hroom hmsgs hS.wfText haxe
    refine ⟨_, R', getStatToSend_eq hS hne, hR', fun id => ⟨fun hnone => ?_, fun m hm => ?_⟩⟩
    · rw [hother id, hempty, OrdMap.find_empty]
      intro hid
      obtain ⟨p, hp, rfl⟩ := mem_map.1 hid
      obtain ⟨e, he, rfl⟩ := mem_map.1 hp
      have hkey := OrdMap.not_mem_keys hnone
      rw [(hS.entry he).1] at hkey
      exact hkey (mem_map_of_mem he)
    · obtain ⟨m', hm', hmerged⟩ :=
        hfound (m, m.mapNodes.entries) (mem_map.2 ⟨(id, m), OrdMap.mem_entries.2 hm, rfl⟩)
      rw [(hS.ids id m hm).1, hempty, OrdMap.find_empty] at hmerged
      rw [(hS.ids id m hm).1] at hm'
      refine ⟨m', hm', hmerged.ttl, fun nodeId => ⟨fun hnone => ?_, fun n hn => ?_⟩⟩
      · exact hmerged.other nodeId (OrdMap.not_mem_keys hnone)
      · obtain ⟨r, hr, hfind⟩ := hmerged.found (nodeId, n) (OrdMap.mem_entries.2 hn)
        exact ⟨_, hfind, hr.create⟩

/-- Without it the first node that is read is written behind its array. -/
theorem getStatToSend_not_read {S R : NetworkStat} (hS : S.WfStat) {id : List Char} {m : Message}
    (hm : S.messagesMatrix.find id = some m) (hnodes : m.mapNodes.entries ≠ []) :
    ¬PushCopies 0 S R := by
  rintro ⟨text, R', htext, hR', -⟩
  have hentry : (id, m) ∈ S.messagesMatrix.entries := OrdMap.mem_entries.2 hm
  rw [getStatToSend_eq hS (List.ne_nil_of_mem hentry)] at htext
  obtain rfl := Option.some.inj htext
  obtain ⟨rfl, hid⟩ := hS.ids id m hm
  have hmem : (m, m.mapNodes.entries) ∈ S.allMessages := mem_map.2 ⟨_, hentry, rfl⟩
  have hwf := hS.wfText
  have hread := updateNetworkStat_zero (t := S.messageText m m.mapNodes.entries) hwf.free
    (fun t ht => ?_) (mem_map.2 ⟨_, hmem, rfl⟩)
    (fun tail => ⟨m.bundleId, getBundleId_messageText hid, hid.ne_nil⟩) (fun tail htail => ?_) R
  · rw [statText, hread] at hR'
    cases hR'
  · obtain ⟨p, hp, rfl⟩ := mem_map.1 ht
    exact head_messageText (hwf.ids p hp)
  · rw [getNumberOfNodes_messageText hid (hwf.nodes _ hmem).ids htail]
    exact length_pos_iff.2 hnodes

/-- A node with no message gets the matrix of the sender if and only if no node is in it. -/
theorem pushCopies_iff {S R : NetworkStat} (hS : S.WfStat)
    (hempty : R.messagesMatrix = OrdMap.empty) (haxe : R.axeLength = S.axeLength) :
    PushCopies 0 S R ↔
      ∀ id m, S.messagesMatrix.find id = some m → m.mapNodes.entries = [] := by
  constructor
  · intro h id m hm
    by_contra hnodes
    exact getStatToSend_not_read hS hm hnodes h
  · intro h
    exact push_copies_matrix (fun id m hm hnodes => absurd (h id m hm) hnodes) hS hempty haxe

/-- A matrix with two messages that the same nodes have seen. -/
def gossip (nodes : OrdMap (List Char) StatNode) : NetworkStat :=
  ⟨2, (OrdMap.empty.set ['R'] ⟨['R'], 1 / 3, nodes⟩).set ['R', '2'] ⟨['R', '2'], 1 / 3, nodes⟩,
    OrdMap.empty⟩

def seen (statVersion : ℤ) : StatNode :=
  ⟨statVersion, 0, fun k => if k = 1 then 1 else 0, fun _ => 1, true, 0⟩

def oneNode (statVersion : ℤ) : OrdMap (List Char) StatNode :=
  OrdMap.empty.set ['R', '1'] (seen statVersion)

def twoNodes : OrdMap (List Char) StatNode := (oneNode 1).set ['R', ',', '2'] (seen 2)

theorem find_gossip {nodes : OrdMap (List Char) StatNode} {id : List Char} {m : Message}
    (h : (gossip nodes).messagesMatrix.find id = some m) : WfId id ∧ m = ⟨id, 1 / 3, nodes⟩ := by
  have hmem : (id, m) ∈ [(['R'], (⟨['R'], 1 / 3, nodes⟩ : Message)),
      (['R', '2'], ⟨['R', '2'], 1 / 3, nodes⟩)] := OrdMap.mem_entries.2 h
  simp only [mem_cons, not_mem_nil, or_false, Prod.mk.injEq] at hmem
  rcases hmem with ⟨rfl, rfl⟩ | ⟨rfl, rfl⟩
  · exact ⟨.of_all rfl rfl, rfl⟩
  · exact ⟨.of_all rfl rfl, rfl⟩

theorem wfStat_gossip {nodes : OrdMap (List Char) StatNode}
    (h : ∀ e ∈ nodes.entries, WfId e.1 ∧ ∃ v : ℤ, (0 ≤ v ∧ v ≤ 2) ∧ e.2 = seen v) :
    (gossip nodes).WfStat := by
  refine ⟨fun id m hm => ?_, fun id m hm nodeId n hn => ?_⟩
  · obtain ⟨hid, rfl⟩ := find_gossip hm
    exact ⟨rfl, hid⟩
  · obtain ⟨-, rfl⟩ := find_gossip hm
    obtain ⟨hid, v, ⟨hnonneg, hle⟩, rfl⟩ := h (nodeId, n) (OrdMap.mem_entries.2 hn)
    refine ⟨hid, hnonneg, hle, Or.inr ⟨le_rfl, (by decide : (0 : ℤ) < (2 : ℕ))⟩, fun k _ _ => ?_⟩
    by_cases hk : k = 1
    · exact Or.inr (if_pos hk)
    · exact Or.inl (if_neg hk)

theorem wfStat_twoNodes : (gossip twoNodes).WfStat := by
  apply wfStat_gossip
  intro e he
  have hmem : e ∈ [(['R', ',', '2'], seen 2), (['R', '1'], seen 1)] := he
  simp only [mem_cons, not_mem_nil, or_false] at hmem
  rcases hmem with rfl | rfl
  · exact ⟨.of_all rfl rfl, 2, by decide, rfl⟩
  · exact ⟨.of_all rfl rfl, 1, by decide, rfl⟩

theorem pushCopies_iff_gossip :
    PushCopies 0 (gossip OrdMap.empty) ⟨2, OrdMap.empty, OrdMap.empty⟩ := by
  have hwf : (gossip OrdMap.empty).WfStat := wfStat_gossip fun e he => absurd he not_mem_nil
  refine (pushCopies_iff (R := ⟨2, OrdMap.empty, OrdMap.empty⟩) hwf rfl rfl).2 fun id m hm => ?_
  obtain ⟨-, rfl⟩ := find_gossip hm
  rfl

theorem not_pushCopies :
    ¬PushCopies 0 (gossip twoNodes) ⟨2, OrdMap.empty, OrdMap.empty⟩ := by
  have hfind : (gossip twoNodes).messagesMatrix.find ['R'] = some ⟨['R'], 1 / 3, twoNodes⟩ := rfl
  refine getStatToSend_not_read wfStat_twoNodes hfind fun h => ?_
  cases h

end NetworkStat

end Ns2
