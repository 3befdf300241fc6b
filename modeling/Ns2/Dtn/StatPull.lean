import Ns2.Dtn.StatRequest

/-! The version-based pull: the sender answers a request with the nodes that are newer than those
of the request or missing there, and an answer that describes any node is not read. -/

namespace Ns2

open Str List

namespace NetworkStat

variable {S R : NetworkStat} {mR mS : Message}

/-- The receiver does not know the node, or knows an older version of it. -/
def newer (mR : Message) (e : List Char × StatNode) : Bool :=
  match mR.mapNodes.find e.1 with
  | some n => n.statVersion < e.2.statVersion
  | none => true

/-- The nodes that the answer describes. -/
def newerNodes (mR mS : Message) : List (List Char × StatNode) :=
  mS.mapNodes.entries.filter (newer mR)

/-- The answer opens with the first node of the map. -/
def opensWithFirst (mR mS : Message) : Bool := mS.mapNodes.entries.head?.all (newer mR)

theorem isSelected_versions (mR : Message) (e : List Char × StatNode) :
    isSelected (versions mR) e = newer mR e := by
  have hfind : ((versions mR).find? fun nv => nv.1 = e.1) =
      (mR.mapNodes.entries.find? fun x => x.1 = e.1).map fun x => (x.1, x.2.statVersion) := by
    rw [versions, find?_map]
    rfl
  have hmap : mR.mapNodes.find e.1 =
      (mR.mapNodes.entries.find? fun x => x.1 = e.1).map Prod.snd := by
    rw [OrdMap.find_eq]
    congr!
  rw [isSelected, newer, hfind, hmap]
  cases mR.mapNodes.entries.find? fun x => x.1 = e.1 with
  | none => rfl
  | some x => rfl

theorem selectedNodes_versions (mR mS : Message) :
    selectedNodes (versions mR) mS = (newerNodes mR mS).map Prod.fst := by
  rw [selectedNodes, newerNodes]
  congr 2
  funext e
  exact isSelected_versions mR e

theorem mem_selectedNodes (mR mS : Message) {e : List Char × StatNode}
    (he : e ∈ mS.mapNodes.entries) :
    decide (e.1 ∈ selectedNodes (versions mR) mS) = newer mR e := by
  rw [selectedNodes_versions, Bool.eq_iff_iff, decide_eq_true_iff, mem_map]
  constructor
  · rintro ⟨x, hx, heq⟩
    obtain ⟨hmem, hnewer⟩ := mem_filter.1 hx
    have hval : some x.2 = some e.2 := by
      rw [← OrdMap.mem_entries.1 hmem, ← OrdMap.mem_entries.1 he, heq]
    obtain rfl : x = e := Prod.ext heq (Option.some.inj hval)
    exact hnewer
  · intro hnewer
    exact ⟨e, mem_filter.2 ⟨he, hnewer⟩, rfl⟩

/-- The text of a message in an answer. -/
def answerText (S : NetworkStat) (mR mS : Message) : List Char :=
  mS.bundleId ++ '+' :: (showFloat mS.ttl ++ '*' :: join '$'
    ((if opensWithFirst mR mS then [] else [[]]) ++
      (newerNodes mR mS).map fun e => S.nodeText e.1 e.2))

theorem getSubSetDescription_eq (hnodes : WfNodes S.axeLength mS.mapNodes.entries)
    (hne : newerNodes mR mS ≠ []) :
    S.getSubSetDescription (selectedNodes (versions mR) mS) mS = some (S.answerText mR mS) := by
  have hsel := fun e => mem_selectedNodes mR mS (e := e)
  unfold getSubSetDescription describeMapNodes answerText opensWithFirst
  unfold newerNodes at *
  cases hentries : mS.mapNodes.entries with
  | nil => exact absurd (by rw [hentries]; rfl) hne
  | cons e nodes =>
    rw [hentries] at hnodes hsel
    have hfilter : (nodes.filter fun x => decide (x.1 ∈ selectedNodes (versions mR) mS)) =
        nodes.filter (newer mR) :=
      filter_congr fun x hx => hsel x (mem_cons_of_mem _ hx)
    rw [if_neg (cons_ne_nil _ _), if_neg (cons_ne_nil _ _),
      describeNodes_true (fun x hx => (hnodes.ids x hx).ne_nil)
        (fun x hx => (hnodes.wf x hx).version_le), hfilter, hsel e mem_cons_self]
    by_cases hfirst : newer mR e = true
    · rw [if_pos hfirst, filter_cons_of_pos hfirst]
      simp [hfirst]
    · rw [if_neg hfirst, filter_cons_of_neg hfirst]
      simp [hfirst]

theorem answerText_eq (S : NetworkStat) (mR mS : Message) (tail : List Char) :
    S.answerText mR mS ++ tail = (mS.bundleId ++ '+' :: showFloat mS.ttl) ++
      '*' :: (join '$' ((if opensWithFirst mR mS then [] else [[]]) ++
        (newerNodes mR mS).map fun e => S.nodeText e.1 e.2) ++ tail) := by
  simp [answerText]

theorem head_answerText (S : NetworkStat) (mR : Message) (hid : WfId mS.bundleId) :
    (S.answerText mR mS).head? = some 'R' := by
  rw [answerText, head?_append, hid.head]
  rfl

theorem answerPieces_free (S : NetworkStat) (mR : Message)
    (hids : ∀ e ∈ mS.mapNodes.entries, WfId e.1) :
    ∀ s ∈ (if opensWithFirst mR mS then [] else [[]]) ++
        (newerNodes mR mS).map (fun e => S.nodeText e.1 e.2),
      '*' ∉ s ∧ '$' ∉ s ∧ '\\' ∉ s ∧ '#' ∉ s := by
  intro s hs
  rcases mem_append.1 hs with hs | hs
  · split_ifs at hs
    · cases hs
    · rw [mem_singleton.1 hs]
      simp
  · exact nodeText_free S (fun e he => hids e (mem_of_mem_filter he)) s hs

theorem answerText_free (hid : WfId mS.bundleId) (hids : ∀ e ∈ mS.mapNodes.entries, WfId e.1) :
    '\\' ∉ S.answerText mR mS ∧ '#' ∉ S.answerText mR mS := by
  have hpieces := answerPieces_free S mR hids
  have hback := head_free hid (c := '\\') (by decide) (by decide)
  have hhash := head_free hid (c := '#') (by decide) (by decide)
  rw [← append_nil (S.answerText mR mS), answerText_eq, append_nil]
  simp only [mem_append (s := _ ++ _), mem_cons, not_or]
  refine ⟨⟨hback, by decide, ?_⟩, hhash, by decide, ?_⟩
  · exact not_mem_join (by decide) fun s hs => (hpieces s hs).2.2.1
  · exact not_mem_join (by decide) fun s hs => (hpieces s hs).2.2.2

/-- The pairs of messages that both sides know, where the sender has something newer. -/
def answered (S R : NetworkStat) (e : List Char × NodeVersionList) : Option (Message × Message) :=
  (R.messagesMatrix.find e.1).bind fun mR => (S.messagesMatrix.find e.1).bind fun mS =>
    if newerNodes mR mS = [] then none else some (mR, mS)

section

variable {e : List Char × NodeVersionList} {entries : List (List Char × NodeVersionList)}

theorem answerFrom_of_not_answered (he : ∃ m, R.messagesMatrix.find e.1 = some m ∧ e.2 = versions m)
    (h : answered S R e = none) (isBegin : Bool) :
    S.answerFrom isBegin (e :: entries) = S.answerFrom isBegin entries := by
  obtain ⟨mR, hR, hversions⟩ := he
  rw [answered, hR, Option.bind_some] at h
  rw [answerFrom]
  cases hS : S.messagesMatrix.find e.1 with
  | none => rfl
  | some mS =>
    rw [hS, Option.bind_some] at h
    split_ifs at h with hnil
    dsimp only
    rw [hversions, selectedNodes_versions, hnil, map_nil, if_pos rfl]

theorem answerFrom_of_answered (hwf : S.WfStat)
    (he : ∃ m, R.messagesMatrix.find e.1 = some m ∧ e.2 = versions m) {p : Message × Message}
    (h : answered S R e = some p) (isBegin : Bool) :
    S.answerFrom isBegin (e :: entries) = (S.answerFrom false entries).map fun rest =>
      (if isBegin then [] else ['\\']) ++ S.answerText p.1 p.2 ++ rest := by
  obtain ⟨mR, hR, hversions⟩ := he
  rw [answered, hR, Option.bind_some] at h
  obtain ⟨mS, hS, h⟩ := Option.bind_eq_some_iff.1 h
  split_ifs at h with hne
  obtain rfl := Option.some.inj h
  obtain ⟨hbundle, hid⟩ := hwf.ids _ _ hS
  have hsel : selectedNodes (versions mR) mS ≠ [] := by
    rw [selectedNodes_versions]
    simpa using hne
  have htext : S.answerText mR mS ≠ [] := by
    intro hnil
    have hhead := head_answerText S mR (hbundle.symm ▸ hid)
    rw [hnil] at hhead
    cases hhead
  rw [answerFrom, hS]
  dsimp only
  rw [hversions, if_neg hsel, getSubSetDescription_eq (hwf.wfNodes_all hS) hne, Option.bind_some,
    if_neg htext]

section

variable (hwf : S.WfStat)
  (hentries : ∀ e ∈ entries, ∃ m, R.messagesMatrix.find e.1 = some m ∧ e.2 = versions m)
include hwf hentries

theorem answerFrom_false :
    S.answerFrom false entries = some (((entries.filterMap (answered S R)).map
      fun p => S.answerText p.1 p.2).flatMap fun t => '\\' :: t) := by
  induction entries with
  | nil => rfl
  | cons e entries ih =>
    have he := hentries e mem_cons_self
    have ih := ih fun x hx => hentries x (mem_cons_of_mem _ hx)
    cases h : answered S R e with
    | none => rw [answerFrom_of_not_answered he h, ih, filterMap_cons_none h]
    | some p =>
      rw [answerFrom_of_answered hwf he h, ih, filterMap_cons_some h]
      rfl

theorem answerFrom_true :
    S.answerFrom true entries = some (join '\\' ((entries.filterMap (answered S R)).map
      fun p => S.answerText p.1 p.2)) := by
  induction entries with
  | nil => rfl
  | cons e entries ih =>
    have he := hentries e mem_cons_self
    have hrest := fun x hx => hentries x (mem_cons_of_mem _ hx)
    cases h : answered S R e with
    | none => rw [answerFrom_of_not_answered he h, ih hrest, filterMap_cons_none h]
    | some p =>
      rw [answerFrom_of_answered hwf he h, answerFrom_false hwf hrest, filterMap_cons_some h]
      rfl

end

end

variable {ids : List (List Char)} {room axeLength : ℕ} {nodeId id : List Char} {r : Report}
  {m m' : Message} {pairs : List (Message × Message)} {p : Message × Message}

/-- What the sender answers to a request for `ids`. -/
structure Answer (S R : NetworkStat) (ids : List (List Char)) (pairs : List (Message × Message)) :
    Prop where
  mem : ∀ p, p ∈ pairs ↔ ∃ id ∈ ids, R.messagesMatrix.find id = some p.1 ∧
    S.messagesMatrix.find id = some p.2 ∧ p.1.mapNodes.entries ≠ [] ∧ newerNodes p.1 p.2 ≠ []
  nodup : (pairs.map fun p => p.2.bundleId).Nodup

def answersText (S : NetworkStat) (pairs : List (Message × Message)) : List Char :=
  join '\\' (pairs.map fun p => S.answerText p.1 p.2) ++ ['#']

theorem bundleIds_answered (hwf : S.WfStat) (entries : List (List Char × NodeVersionList)) :
    ((entries.filterMap (answered S R)).map fun p => p.2.bundleId).Sublist
      (entries.map Prod.fst) := by
  induction entries with
  | nil => exact Sublist.refl _
  | cons e entries ih =>
    cases h : answered S R e with
    | none =>
      rw [filterMap_cons_none h]
      exact ih.cons e.1
    | some p =>
      obtain ⟨mR, -, h'⟩ := Option.bind_eq_some_iff.1 h
      obtain ⟨mS, hS, h'⟩ := Option.bind_eq_some_iff.1 h'
      split_ifs at h'
      obtain rfl := Option.some.inj h'
      rw [filterMap_cons_some h, map_cons, (hwf.ids _ _ hS).1]
      exact ih.cons_cons e.1

theorem getStatToSendBasedOnVersions_eq (hS : S.WfStat) (hR : R.WfStat) (hids : ids.Nodup) :
    ∃ req pairs, R.getMessagesIdsBasedOnVersion ids = some req ∧ Answer S R ids pairs ∧
      S.getStatToSendBasedOnVersions req =
        some (if pairs = [] then [] else S.answersText pairs) := by
  obtain ⟨map, hmap, hfind⟩ := convertVersionsBasedStatToMap_request hR hids
  have hentries : ∀ e ∈ map.entries, ∃ m, R.messagesMatrix.find e.1 = some m ∧
      e.2 = versions m := by
    intro e he
    obtain ⟨-, m, hm, -, hversions⟩ := (hfind e.1 e.2).1 (OrdMap.mem_entries.1 he)
    exact ⟨m, hm, hversions⟩
  have hmem : ∀ p, p ∈ map.entries.filterMap (answered S R) ↔
      ∃ id ∈ ids, R.messagesMatrix.find id = some p.1 ∧ S.messagesMatrix.find id = some p.2 ∧
        p.1.mapNodes.entries ≠ [] ∧ newerNodes p.1 p.2 ≠ [] := by
    intro p
    rw [mem_filterMap]
    constructor
    · rintro ⟨e, he, h⟩
      obtain ⟨hid, m, hm, hne, -⟩ := (hfind e.1 e.2).1 (OrdMap.mem_entries.1 he)
      rw [answered, hm, Option.bind_some] at h
      obtain ⟨mS, hmS, h⟩ := Option.bind_eq_some_iff.1 h
      split_ifs at h with hnewer
      obtain rfl := Option.some.inj h
      exact ⟨e.1, hid, hm, hmS, hne, hnewer⟩
    · rintro ⟨id, hid, hm, hmS, hne, hnewer⟩
      refine ⟨(id, versions p.1),
        OrdMap.mem_entries.2 ((hfind _ _).2 ⟨hid, p.1, hm, hne, rfl⟩), ?_⟩
      rw [answered, hm, Option.bind_some, hmS, Option.bind_some, if_neg hnewer]
  refine ⟨_, map.entries.filterMap (answered S R), getMessagesIdsBasedOnVersion_eq hR ids,
    ⟨hmem, map.nodup_keys.sublist (bundleIds_answered hS _)⟩, ?_⟩
  rw [getStatToSendBasedOnVersions, hmap, Option.bind_some]
  by_cases hnil : map.entries.filterMap (answered S R) = []
  · rw [if_pos hnil]
    split_ifs with hmessages
    · rfl
    · rw [answerFrom_true hS hentries, hnil]
      rfl
  · obtain ⟨p, rest, hp⟩ := exists_cons_of_ne_nil hnil
    obtain ⟨id, -, -, hmS, -⟩ := (hmem p).1 (hp ▸ mem_cons_self)
    have hmessages : S.messagesMatrix.entries ≠ [] :=
      List.ne_nil_of_mem (OrdMap.mem_entries.2 hmS)
    obtain ⟨rfl, hid⟩ := hS.ids _ _ hmS
    have htext : join '\\' ((map.entries.filterMap (answered S R)).map
        fun p => S.answerText p.1 p.2) ≠ [] := by
      intro h
      have hhead := head_answerText S p.1 hid
      rw [hp, map_cons, join, append_eq_nil_iff] at h
      rw [h.1] at hhead
      cases hhead
    rw [if_neg hmessages, answerFrom_true hS hentries, Option.map_some, if_neg htext, if_neg hnil]
    rfl

section

variable (h : Answer S R ids pairs) (hS : S.WfStat)
include h hS

theorem Answer.wf (hp : p ∈ pairs) :
    WfId p.2.bundleId ∧ WfNodes S.axeLength p.2.mapNodes.entries := by
  obtain ⟨id, -, -, hmS, -⟩ := (h.mem p).1 hp
  obtain ⟨rfl, hid⟩ := hS.ids _ _ hmS
  exact ⟨hid, hS.wfNodes_all hmS⟩

theorem Answer.free :
    ∀ t ∈ pairs.map (fun p => S.answerText p.1 p.2), '\\' ∉ t ∧ '#' ∉ t := by
  intro t ht
  obtain ⟨p, hp, rfl⟩ := mem_map.1 ht
  exact answerText_free (h.wf hS hp).1 (h.wf hS hp).2.ids

/-- An answer with any message in it is not read. -/
theorem updateNetworkStat_answersText (hp : p ∈ pairs) (R : NetworkStat) :
    R.updateNetworkStat 0 (S.answersText pairs) = none := by
  obtain ⟨hid, hnodes⟩ := h.wf hS hp
  have hpieces := answerPieces_free S p.1 hnodes.ids
  refine updateNetworkStat_zero (t := S.answerText p.1 p.2) (h.free hS) (fun t ht => ?_)
    (mem_map_of_mem hp) (fun tail => ⟨p.2.bundleId, ?_, hid.ne_nil⟩) (fun tail htail => ?_) R
  · obtain ⟨q, hq, rfl⟩ := mem_map.1 ht
    exact head_answerText S q.1 (h.wf hS hq).1
  · rw [answerText, append_assoc, cons_append, getBundleId]
    exact substr_find (hid.not_mem (by decide)) _
  · obtain ⟨id, -, -, -, -, hne⟩ := (h.mem p).1 hp
    have hany : (if opensWithFirst p.1 p.2 then [] else [[]]) ++
        (newerNodes p.1 p.2).map (fun e => S.nodeText e.1 e.2) ≠ [] := by simp [hne]
    rw [answerText_eq, getNumberOfNodes_join hany
      ⟨head_free hid (by decide) (by decide), head_free hid (by decide) (by decide)⟩
      (fun s hs => ⟨(hpieces s hs).1, (hpieces s hs).2.1⟩)
      ⟨tail_free htail (by decide), tail_free htail (by decide)⟩]
    exact length_pos_iff.2 hany

end

/-- A node's version, -1 when it is missing. -/
def versionOf (n : Option StatNode) : ℤ := (n.map StatNode.statVersion).getD (-1)

/-- A node is known afterwards when one side knew it, as the side with the newer version
knew it. -/
structure NodeMerged (axeLength : ℕ) (nR nS n' : Option StatNode) : Prop where
  known : n' = none ↔ nR = none ∧ nS = none
  version : versionOf n' = max (versionOf nR) (versionOf nS)
  bits_sender : versionOf nR < versionOf nS → ∀ k : ℤ, 0 ≤ k → k < axeLength →
    n'.map (fun n => n.bitMap k) = nS.map fun n => n.bitMap k
  bits_receiver : versionOf nS ≤ versionOf nR → ∀ k : ℤ, 0 ≤ k → k < axeLength →
    n'.map (fun n => n.bitMap k) = nR.map fun n => n.bitMap k

/-- The receiver asks for `ids`, and applies the answer. -/
def PullMerges (S R : NetworkStat) (ids : List (List Char)) : Prop :=
  ∃ req ans R', R.getMessagesIdsBasedOnVersion ids = some req ∧
    S.getStatToSendBasedOnVersions req = some ans ∧ R.updateNetworkStat 0 ans = some R' ∧
    (∀ id ∈ ids, ∀ mR mS, R.messagesMatrix.find id = some mR → S.messagesMatrix.find id = some mS →
      ∃ m', R'.messagesMatrix.find id = some m' ∧ ∀ nodeId, NodeMerged S.axeLength
        (mR.mapNodes.find nodeId) (mS.mapNodes.find nodeId) (m'.mapNodes.find nodeId)) ∧
    ∀ id, (id ∉ ids ∨ R.messagesMatrix.find id = none ∨ S.messagesMatrix.find id = none) →
      R'.messagesMatrix.find id = R.messagesMatrix.find id

theorem nodeMerged_of_not_newer
    (hversion : ∀ n, mR.mapNodes.find nodeId = some n → 0 ≤ n.statVersion)
    (h : nodeId ∉ (newerNodes mR mS).map Prod.fst) :
    NodeMerged axeLength (mR.mapNodes.find nodeId) (mS.mapNodes.find nodeId)
      (mR.mapNodes.find nodeId) := by
  cases hS : mS.mapNodes.find nodeId with
  | none =>
    have hle : versionOf none ≤ versionOf (mR.mapNodes.find nodeId) := by
      cases hR : mR.mapNodes.find nodeId with
      | none => exact le_rfl
      | some n => exact (by decide : (-1 : ℤ) ≤ 0).trans (hversion n hR)
    exact ⟨by simp, (max_eq_left hle).symm, fun hlt => absurd hlt (not_lt.2 hle),
      fun _ _ _ _ => rfl⟩
  | some n =>
    have hold : newer mR (nodeId, n) = false := by
      cases hnewer : newer mR (nodeId, n) with
      | false => rfl
      | true =>
        exact absurd (mem_map_of_mem (mem_filter.2 ⟨OrdMap.mem_entries.2 hS, hnewer⟩)) h
    cases hR : mR.mapNodes.find nodeId with
    | none =>
      rw [newer, hR] at hold
      cases hold
    | some n₀ =>
      rw [newer, hR] at hold
      have hle : n.statVersion ≤ n₀.statVersion := not_lt.1 (of_decide_eq_false hold)
      exact ⟨by simp, (max_eq_left hle).symm, fun hlt => absurd hlt (not_lt.2 hle),
        fun _ _ _ _ => rfl⟩

theorem WfStat.version_nonneg (h : S.WfStat) (hm : S.messagesMatrix.find id = some m)
    (nodeId : List Char) (n : StatNode) (hn : m.mapNodes.find nodeId = some n) :
    0 ≤ n.statVersion :=
  (h.nodes id m hm nodeId n hn).2.version_nonneg

theorem newerNodes_ne_nil : newerNodes mR mS ≠ [] ↔
    ∃ e ∈ mS.mapNodes.entries, newer mR e = true := by
  simp [newerNodes]

/-- A pull that merges has nothing to bring. -/
theorem newerNodes_of_pullMerges (hS : S.WfStat) (hR : R.WfStat) (hids : ids.Nodup)
    (h : PullMerges S R ids) : ∀ id ∈ ids, ∀ mR mS, R.messagesMatrix.find id = some mR →
      S.messagesMatrix.find id = some mS → newerNodes mR mS = [] := by
  obtain ⟨req, pairs, hreq, hans, hstat⟩ := getStatToSendBasedOnVersions_eq hS hR hids
  obtain ⟨req', ans, R', hreq', hstat', hR', hmerge, -⟩ := h
  obtain rfl := Option.some.inj (hreq.symm.trans hreq')
  obtain rfl := Option.some.inj (hstat.symm.trans hstat')
  have hnil : pairs = [] := by
    by_contra hne
    obtain ⟨p, hp⟩ := exists_mem_of_ne_nil pairs hne
    rw [if_neg hne, updateNetworkStat_answersText hans hS hp] at hR'
    cases hR'
  rw [if_pos hnil] at hR'
  obtain rfl := Option.some.inj hR'
  intro id hid mR mS hmR hmS
  by_contra hnewer
  -- only a message without nodes at the receiver is left out of the answer
  have hempty : mR.mapNodes.entries = [] := by
    by_contra hne
    have hmem := (hans.mem (mR, mS)).2 ⟨id, hid, hmR, hmS, hne, hnewer⟩
    rw [hnil] at hmem
    cases hmem
  obtain ⟨m', hm', hnodes⟩ := hmerge id hid _ _ hmR hmS
  obtain rfl := Option.some.inj (hmR.symm.trans hm')
  obtain ⟨e, he, -⟩ := newerNodes_ne_nil.1 hnewer
  have hnone : mR.mapNodes.find e.1 = none := by
    rw [OrdMap.find, hempty]
    rfl
  have hknown := ((hnodes e.1).known.1 hnone).2
  rw [OrdMap.mem_entries.1 he] at hknown
  cases hknown

/-- A pull merges the messages that are asked for if and only if the sender has no node of
them that the receiver does not know or knows an older version of. -/
theorem pullMerges_iff (hS : S.WfStat) (hR : R.WfStat)
    {ids : List (List Char)} (hids : ids.Nodup) :
    PullMerges S R ids ↔ ∀ id ∈ ids, ∀ mR mS, R.messagesMatrix.find id = some mR →
      S.messagesMatrix.find id = some mS → newerNodes mR mS = [] := by
  refine ⟨newerNodes_of_pullMerges hS hR hids, fun h => ?_⟩
  obtain ⟨req, pairs, hreq, hans, hstat⟩ := getStatToSendBasedOnVersions_eq hS hR hids
  have hnil : pairs = [] := by
    apply eq_nil_iff_forall_not_mem.2
    intro p hp
    obtain ⟨id, hid, hmR, hmS, -, hnewer⟩ := (hans.mem p).1 hp
    exact hnewer (h id hid _ _ hmR hmS)
  rw [if_pos hnil] at hstat
  refine ⟨req, [], R, hreq, hstat, rfl, fun id hid mR mS hmR hmS => ?_, fun id _ => rfl⟩
  refine ⟨mR, hmR, fun nodeId => nodeMerged_of_not_newer (hR.version_nonneg hmR nodeId) ?_⟩
  rw [h id hid mR mS hmR hmS]
  exact not_mem_nil

theorem wfStat_oneNode : (gossip (oneNode 0)).WfStat := by
  apply wfStat_gossip
  intro e he
  obtain rfl := mem_singleton.1 he
  exact ⟨.of_all rfl rfl, 0, by decide, rfl⟩

theorem nodup_asked : [['R'], ['R', '2']].Nodup := by decide

/-- The sender has an older version of one of the two nodes that the receiver knows. -/
theorem pullMerges_iff_older :
    PullMerges (gossip (oneNode 0)) (gossip twoNodes) [['R'], ['R', '2']] := by
  apply (pullMerges_iff wfStat_oneNode wfStat_twoNodes nodup_asked).2
  intro id _ mR mS hmR hmS
  obtain ⟨-, rfl⟩ := find_gossip hmR
  obtain ⟨-, rfl⟩ := find_gossip hmS
  rfl

/-- The receiver has an older version of one node, and lacks the other. -/
theorem not_pullMerges :
    ¬PullMerges (gossip twoNodes) (gossip (oneNode 0)) [['R'], ['R', '2']] := by
  intro h
  have hnil := newerNodes_of_pullMerges wfStat_twoNodes wfStat_oneNode nodup_asked h ['R']
    mem_cons_self _ _ rfl rfl
  cases hnil

end NetworkStat

end Ns2
