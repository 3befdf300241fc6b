import Ns2.Dtn.StatPush

/-! The request of the version-based pull, as it is written and as it is read. -/

namespace Ns2

open Str Option

namespace NetworkStat

variable {ns : NetworkStat} {m : Message}
variable {nodeId : List Char} {ids : List (List Char)} {map : OrdMap (List Char) NodeVersionList}
variable {map' : OrdMap (List Char) NodeVersionList} {tail : List Char}
  {pieces : List (Option Message)}

def versions (m : Message) : NodeVersionList :=
  m.mapNodes.entries.map fun e => (e.1, e.2.statVersion)

/-- The text of a message in a request. -/
def requestText (m : Message) : List Char :=
  m.bundleId ++ if m.mapNodes.entries = [] then [] else
    '*' :: join '$' (m.mapNodes.entries.map fun e => versionText e.1 e.2)

theorem not_mem_versionText (n : StatNode) (hid : WfId nodeId) {c : Char} (h : isSpecial c = true)
    (hne : c ≠ '@') : c ∉ versionText nodeId n := by
  simp [versionText, hid.not_mem h, not_mem_showInt h, hne]

theorem versionText_free {nodes : List (List Char × StatNode)} (hids : ∀ e ∈ nodes, WfId e.1) :
    ∀ s ∈ nodes.map (fun e => versionText e.1 e.2), '*' ∉ s ∧ '$' ∉ s ∧ '\\' ∉ s ∧ '#' ∉ s := by
  intro s hs
  obtain ⟨e, he, rfl⟩ := List.mem_map.1 hs
  have hfree := fun (c : Char) => not_mem_versionText e.2 (hids e he) (c := c)
  exact ⟨hfree '*' (by decide) (by decide), hfree '$' (by decide) (by decide),
    hfree '\\' (by decide) (by decide), hfree '#' (by decide) (by decide)⟩

theorem head_versionText (n : StatNode) (hid : WfId nodeId) :
    (versionText nodeId n).head? = some 'R' := by
  rw [versionText, List.head?_append, hid.head]
  rfl

theorem head_requestText (hid : WfId m.bundleId) : (requestText m).head? = some 'R' := by
  rw [requestText, List.head?_append, hid.head]
  rfl

theorem requestText_free (hid : WfId m.bundleId) (hids : ∀ e ∈ m.mapNodes.entries, WfId e.1) :
    '\\' ∉ requestText m ∧ '#' ∉ requestText m := by
  have hpieces := versionText_free hids
  have hback := hid.not_mem (c := '\\') (by decide)
  have hhash := hid.not_mem (c := '#') (by decide)
  have hjoin : '\\' ∉ join '$' (m.mapNodes.entries.map fun e => versionText e.1 e.2) ∧
      '#' ∉ join '$' (m.mapNodes.entries.map fun e => versionText e.1 e.2) :=
    ⟨not_mem_join (by decide) fun s hs => (hpieces s hs).2.2.1,
      not_mem_join (by decide) fun s hs => (hpieces s hs).2.2.2⟩
  unfold requestText
  split_ifs
  · simp [hback, hhash]
  · simp [hback, hhash, hjoin]

theorem getVersionBasedDescription_eq (hnodes : WfNodes ns.axeLength m.mapNodes.entries) :
    ns.getVersionBasedDescription m = some (requestText m) := by
  unfold getVersionBasedDescription describeMapNodes requestText
  cases hentries : m.mapNodes.entries with
  | nil => rfl
  | cons e nodes =>
    rw [hentries] at hnodes
    have hall : nodes.filter (fun _ => true) = nodes := List.filter_eq_self.2 fun _ _ => rfl
    rw [if_neg (List.cons_ne_nil _ _), if_neg (List.cons_ne_nil _ _),
      describeNodes_true (fun x hx => (hnodes.ids x hx).ne_nil)
        (fun x hx => (hnodes.wf x hx).version_le), if_pos rfl, hall]
    rfl

/-- The messages that a request names; the first id has its place also when it is not known. -/
def requestPieces (ns : NetworkStat) : List (List Char) → List (Option Message)
  | [] => [none]
  | id :: ids => ns.messagesMatrix.find id :: (ids.filterMap ns.messagesMatrix.find).map some

def pieceText : Option Message → List Char
  | none => []
  | some m => requestText m

theorem WfStat.wfNodes_all (h : ns.WfStat) {id : List Char}
    (hm : ns.messagesMatrix.find id = some m) : WfNodes ns.axeLength m.mapNodes.entries := by
  have hnodes := h.wfNodes hm (p := fun _ => true)
  rwa [List.filter_eq_self.2 fun _ _ => rfl] at hnodes

theorem getMessageNodesCouples_eq (h : ns.WfStat) (id : List Char) :
    ns.getMessageNodesCouples id = some (pieceText (ns.messagesMatrix.find id)) := by
  unfold getMessageNodesCouples
  cases hm : ns.messagesMatrix.find id with
  | none => rfl
  | some m => exact getVersionBasedDescription_eq (h.wfNodes_all hm)

theorem getMessagesIdsFrom_false (h : ns.WfStat) (ids : List (List Char)) :
    ns.getMessagesIdsFrom false ids = some
      (((ids.filterMap ns.messagesMatrix.find).map requestText).flatMap fun t => '\\' :: t) := by
  induction ids with
  | nil => rfl
  | cons id ids ih =>
    rw [getMessagesIdsFrom, getMessageNodesCouples_eq h, bind_some, ih, map_some]
    cases hm : ns.messagesMatrix.find id with
    | none =>
      simp only [List.filterMap_cons, hm]
      rfl
    | some m =>
      obtain ⟨rfl, hid⟩ := h.ids id m hm
      have hpos : 0 < (requestText m).length := by
        apply List.length_pos_iff.2
        intro hnil
        have hhead := head_requestText hid
        rw [hnil] at hhead
        cases hhead
      simp only [List.filterMap_cons, hm]
      rw [pieceText, if_pos ⟨rfl, hpos⟩]
      rfl

theorem getMessagesIdsBasedOnVersion_eq (h : ns.WfStat) (ids : List (List Char)) :
    ns.getMessagesIdsBasedOnVersion ids = some
      (join '\\' ((ns.requestPieces ids).map pieceText) ++ ['#']) := by
  cases ids with
  | nil => rfl
  | cons id ids =>
    rw [getMessagesIdsBasedOnVersion, getMessagesIdsFrom, getMessageNodesCouples_eq h,
      bind_some, getMessagesIdsFrom_false h, requestPieces, List.map_cons, List.map_map]
    rfl

theorem some_mem_requestPieces :
    some m ∈ ns.requestPieces ids ↔ ∃ id ∈ ids, ns.messagesMatrix.find id = some m := by
  cases ids with
  | nil => simp [requestPieces]
  | cons id ids =>
    simp only [requestPieces, List.mem_cons, List.mem_map, List.mem_filterMap, some.injEq,
      exists_eq_right, exists_eq_or_imp]
    rw [eq_comm]

theorem pushVersion_versionText (n : StatNode) (hid : WfId nodeId) {junk : List Char}
    (hjunk : Stops Char.isDigit junk) (msgId : List Char) (map : OrdMap (List Char) NodeVersionList)
    :
    pushVersion msgId (versionText nodeId n ++ junk) map = some
      (map.set msgId ((map.find msgId).getD [] ++ [(nodeId, n.statVersion)])) := by
  have hat : '@' ∉ nodeId := hid.not_mem (by decide)
  have hlen : ¬ (nodeId ++ '@' :: (showInt n.statVersion ++ junk)).length <
      after (some nodeId.length) := by
    simp only [List.length_append, List.length_cons, after]
    omega
  have hversion : substr (after (find '@' (nodeId ++ '@' :: (showInt n.statVersion ++ junk)))) none
      (nodeId ++ '@' :: (showInt n.statVersion ++ junk)) = some (showInt n.statVersion ++ junk) := by
    have hdrop := drop_after_find hat (showInt n.statVersion ++ junk)
    rw [find_append hat] at hdrop ⊢
    rw [substr.eq_def, if_neg hlen]
    exact congrArg some hdrop
  rw [versionText, List.append_assoc, List.cons_append, pushVersion, substr_find hat,
    bind_some, hversion, map_some, atoi_showInt _ hjunk]

/-- The map with the first `k` nodes of a message of the request. -/
structure Pushed (m : Message) (map : OrdMap (List Char) NodeVersionList) (k : ℕ)
    (map' : OrdMap (List Char) NodeVersionList) : Prop where
  found : map'.find m.bundleId = if k = 0 then map.find m.bundleId else
    some ((map.find m.bundleId).getD [] ++ (versions m).take k)
  other : ∀ id, id ≠ m.bundleId → map'.find id = map.find id

theorem Pushed.zero (m : Message) (map : OrdMap (List Char) NodeVersionList) :
    Pushed m map 0 map :=
  ⟨rfl, fun _ _ => rfl⟩

theorem Pushed.succ {k : ℕ} (h : Pushed m map k map') (hk : k < m.mapNodes.entries.length) :
    Pushed m map (k + 1) (map'.set m.bundleId ((map'.find m.bundleId).getD [] ++
      [(m.mapNodes.entries[k].1, m.mapNodes.entries[k].2.statVersion)])) := by
  have htake : (versions m).take (k + 1) = (versions m).take k ++
      [(m.mapNodes.entries[k].1, m.mapNodes.entries[k].2.statVersion)] := by
    rw [List.take_add_one, versions, List.getElem?_map, List.getElem?_eq_getElem hk]
    rfl
  have hgetD : (map'.find m.bundleId).getD [] =
      (map.find m.bundleId).getD [] ++ (versions m).take k := by
    rw [h.found]
    by_cases hzero : k = 0
    · rw [if_pos hzero, hzero, List.take_zero, List.append_nil]
    · rw [if_neg hzero]
      rfl
  refine ⟨?_, fun id hne => ?_⟩
  · rw [OrdMap.find_set_self, hgetD, htake, List.append_assoc, if_neg (Nat.succ_ne_zero k)]
  · rw [OrdMap.find_set_of_ne hne, h.other id hne]

/-- A piece of a request is read with all its nodes; without nodes it leaves no trace. -/
theorem pushVersions_requestText (hid : WfId m.bundleId) (hids : ∀ e ∈ m.mapNodes.entries, WfId e.1)
    (htail : tail = [] ∨ tail = ['#']) (map : OrdMap (List Char) NodeVersionList) :
    ∃ map', pushVersions (requestText m ++ tail) map = some map' ∧
      Pushed m map m.mapNodes.entries.length map' := by
  have hstar : '*' ∉ m.bundleId := hid.not_mem (by decide)
  have hdollar : '$' ∉ m.bundleId := hid.not_mem (by decide)
  by_cases hnil : m.mapNodes.entries = []
  · have hfree : '*' ∉ m.bundleId ++ tail := by
      rw [List.mem_append, not_or]
      exact ⟨hstar, tail_free htail (by decide)⟩
    refine ⟨map, ?_, by rw [hnil]; exact Pushed.zero m map⟩
    rw [requestText, if_pos hnil, List.append_nil, pushVersions, find_eq_none hfree, substr_npos,
      bind_some, getNumberOfNodesForABundle, List.count_eq_zero_of_not_mem hfree]
    rfl
  · have hne : m.mapNodes.entries.map (fun e => versionText e.1 e.2) ≠ [] := by simpa using hnil
    have hpieces := versionText_free hids
    have hback : '\\' ∉ m.bundleId := hid.not_mem (by decide)
    have htext : requestText m ++ tail = m.bundleId ++ '*' ::
        (join '$' (m.mapNodes.entries.map fun e => versionText e.1 e.2) ++ tail) := by
      simp [requestText, hnil]
    have hnumber := getNumberOfNodes_join hne ⟨hstar, hdollar⟩
      (fun s hs => ⟨(hpieces s hs).1, (hpieces s hs).2.1⟩)
      ⟨tail_free htail (by decide), tail_free htail (by decide)⟩
    rw [htext, pushVersions, substr_find hstar, bind_some, hnumber, List.length_map]
    refine foldlM_range_of_step (P := fun k map' => Pushed m map k map') ?_ (Pushed.zero m map)
    intro k hk map' hpushed
    have he := List.getElem_mem hk
    have hi : (m.mapNodes.entries.map fun e => versionText e.1 e.2)[k]? =
        some (versionText m.mapNodes.entries[k].1 m.mapNodes.entries[k].2) := by
      rw [List.getElem?_map, List.getElem?_eq_getElem hk]
      rfl
    obtain ⟨junk, hjunk, hfirst⟩ := getNodeFromStat_join ⟨hstar, hdollar, hback⟩
      (fun s hs => ⟨(hpieces s hs).1, (hpieces s hs).2.1, (hpieces s hs).2.2.1⟩)
      ⟨tail_free htail (by decide), tail_free htail (by decide), tail_free htail (by decide)⟩ hi
      fun _ => head_versionText _ (hids _ he)
    have hstops : Stops Char.isDigit junk := by
      intro c hc
      rcases hfirst c hc with rfl | hc
      · decide
      · rcases htail with rfl | rfl
        · cases hc
        · obtain rfl : '#' = c := some.inj hc
          decide
    refine ⟨_, ?_, hpushed.succ hk⟩
    rw [hjunk, bind_some, pushVersion_versionText _ (hids _ he) hstops]

theorem pushVersions_nil (htail : tail = [] ∨ tail = ['#'])
    (map : OrdMap (List Char) NodeVersionList) : pushVersions tail map = some map := by
  rcases htail with rfl | rfl <;> rfl

/-- The map holds the pieces that have nodes. -/
def Requested (pieces : List (Option Message)) (map : OrdMap (List Char) NodeVersionList) : Prop :=
  ∀ id v, map.find id = some v ↔
    ∃ m, some m ∈ pieces ∧ m.bundleId = id ∧ m.mapNodes.entries ≠ [] ∧ v = versions m

theorem Requested.snoc_none (h : Requested pieces map) : Requested (pieces ++ [none]) map := by
  intro id v
  rw [h id v]
  simp

theorem Requested.snoc (h : Requested pieces map)
    (hnew : ∀ m', some m' ∈ pieces → m'.bundleId ≠ m.bundleId)
    (hpushed : Pushed m map m.mapNodes.entries.length map') :
    Requested (pieces ++ [some m]) map' := by
  have hnone : map.find m.bundleId = none := by
    cases hv : map.find m.bundleId with
    | none => rfl
    | some v =>
      obtain ⟨m', hm', heq, -⟩ := (h _ v).1 hv
      exact absurd heq (hnew m' hm')
  have hfound : map'.find m.bundleId =
      if m.mapNodes.entries = [] then none else some (versions m) := by
    rw [hpushed.found, hnone]
    by_cases hnil : m.mapNodes.entries = []
    · rw [if_pos hnil, if_pos (by rw [hnil]; rfl)]
    · rw [if_neg hnil, if_neg (by simpa using hnil), List.take_of_length_le]
      · rfl
      · rw [versions, List.length_map]
  intro id v
  constructor
  · intro hv
    by_cases hid : id = m.bundleId
    · subst hid
      rw [hfound] at hv
      split_ifs at hv with hnil
      exact ⟨m, by simp, rfl, hnil, (some.inj hv).symm⟩
    · rw [hpushed.other id hid] at hv
      obtain ⟨m', hm', hrest⟩ := (h id v).1 hv
      exact ⟨m', List.mem_append_left _ hm', hrest⟩
  · rintro ⟨m', hm', rfl, hnil, rfl⟩
    rcases List.mem_append.1 hm' with hm' | hm'
    · rw [hpushed.other _ (hnew m' hm')]
      exact (h _ _).2 ⟨m', hm', rfl, hnil, rfl⟩
    · obtain rfl : m' = m := some.inj (List.mem_singleton.1 hm')
      rw [hfound, if_neg hnil]

theorem bundleIds_sublist (h : ns.WfStat) (ids : List (List Char)) :
    ((ids.filterMap ns.messagesMatrix.find).map Message.bundleId).Sublist ids := by
  induction ids with
  | nil => exact List.Sublist.refl _
  | cons id ids ih =>
    cases hm : ns.messagesMatrix.find id with
    | none =>
      simp only [List.filterMap_cons, hm]
      exact ih.cons id
    | some m =>
      simp only [List.filterMap_cons, hm, List.map_cons]
      rw [(h.ids id m hm).1]
      exact ih.cons_cons id

theorem nodup_requestPieces (h : ns.WfStat) (hids : ids.Nodup) :
    ((ns.requestPieces ids).filterMap fun p => p.map Message.bundleId).Nodup := by
  cases ids with
  | nil => exact List.nodup_nil
  | cons id ids =>
    have hsub := bundleIds_sublist h (id :: ids)
    have hpieces : (ns.requestPieces (id :: ids)).filterMap (fun p => p.map Message.bundleId) =
        ((id :: ids).filterMap ns.messagesMatrix.find).map Message.bundleId := by
      cases hm : ns.messagesMatrix.find id with
      | none => simp [requestPieces, hm, List.filterMap_map]
      | some m => simp [requestPieces, hm, List.filterMap_map]
    rw [hpieces]
    exact hids.sublist hsub

theorem requestPieces_ne_nil (ns : NetworkStat) (ids : List (List Char)) :
    ns.requestPieces ids ≠ [] := by
  cases ids <;> exact List.cons_ne_nil _ _

theorem requestPieces_isSome {i : ℕ} {p : Option Message} (hi : (ns.requestPieces ids)[i]? = some p)
    (hne : i ≠ 0) : ∃ m, p = some m := by
  obtain ⟨i, rfl⟩ := Nat.exists_eq_succ_of_ne_zero hne
  cases ids with
  | nil => cases hi
  | cons id ids =>
    have hi' : ((ids.filterMap ns.messagesMatrix.find).map some)[i]? = some p := hi
    obtain ⟨m, -, rfl⟩ := List.mem_map.1 (List.mem_of_getElem? hi')
    exact ⟨m, rfl⟩

theorem pieceText_free (h : ns.WfStat) (ids : List (List Char)) :
    ∀ t ∈ (ns.requestPieces ids).map pieceText, '\\' ∉ t ∧ '#' ∉ t := by
  intro t ht
  obtain ⟨p, hp, rfl⟩ := List.mem_map.1 ht
  cases p with
  | none => exact ⟨List.not_mem_nil, List.not_mem_nil⟩
  | some m =>
    obtain ⟨id, -, hm⟩ := some_mem_requestPieces.1 hp
    obtain ⟨rfl, hid⟩ := h.ids id m hm
    exact requestText_free hid (h.wfNodes_all hm).ids

theorem convertVersionsBasedStatToMap_request (h : ns.WfStat) (hids : ids.Nodup) :
    ∃ map, convertVersionsBasedStatToMap
        (join '\\' ((ns.requestPieces ids).map pieceText) ++ ['#']) = some map ∧
      ∀ id v, map.find id = some v ↔ id ∈ ids ∧ ∃ m, ns.messagesMatrix.find id = some m ∧
        m.mapNodes.entries ≠ [] ∧ v = versions m := by
  have hfree := pieceText_free h ids
  have hnumber := getNumberOfMessages_join (by simpa using requestPieces_ne_nil ns ids) hfree
  rw [convertVersionsBasedStatToMap, hnumber, bind_some, List.length_map]
  suffices hmap : ∃ map, _ ∧
      Requested ((ns.requestPieces ids).take (ns.requestPieces ids).length) map by
    obtain ⟨map, hmap, hreq⟩ := hmap
    refine ⟨map, hmap, fun id v => ?_⟩
    rw [hreq id v, List.take_length]
    constructor
    · rintro ⟨m, hm, rfl, hrest⟩
      obtain ⟨id, hid, hm⟩ := some_mem_requestPieces.1 hm
      obtain ⟨rfl, -⟩ := h.ids id m hm
      exact ⟨hid, m, hm, hrest⟩
    · rintro ⟨hid, m, hm, hrest⟩
      exact ⟨m, some_mem_requestPieces.2 ⟨id, hid, hm⟩, (h.ids id m hm).1, hrest⟩
  refine foldlM_range_of_step
    (P := fun k map => Requested ((ns.requestPieces ids).take k) map) ?_ ?_
  · intro k hk map hreq
    have hpiece : (ns.requestPieces ids)[k]? = some (ns.requestPieces ids)[k] :=
      List.getElem?_eq_getElem hk
    have htake := (List.take_append_getElem hk).symm
    have hi : ((ns.requestPieces ids).map pieceText)[k]? =
        some (pieceText (ns.requestPieces ids)[k]) := by
      rw [List.getElem?_map, hpiece]
      rfl
    have hwf : ∀ m, (ns.requestPieces ids)[k] = some m →
        WfId m.bundleId ∧ WfNodes ns.axeLength m.mapNodes.entries := by
      intro m hm
      obtain ⟨id, -, hfind⟩ := some_mem_requestPieces.1 (hm ▸ List.getElem_mem hk)
      obtain ⟨rfl, hid⟩ := h.ids id m hfind
      exact ⟨hid, h.wfNodes_all hfind⟩
    obtain ⟨tail, htail, hmsg⟩ := getMessageIFromStat_join hfree hi (by
      intro hne
      obtain ⟨m, hm⟩ := requestPieces_isSome hpiece hne
      rw [hm]
      exact head_requestText (hwf m hm).1)
    rw [htake, hmsg, bind_some]
    cases hp : (ns.requestPieces ids)[k] with
    | none => exact ⟨map, pushVersions_nil htail map, hreq.snoc_none⟩
    | some m =>
      obtain ⟨map', hmap', hpushed⟩ :=
        pushVersions_requestText (hwf m hp).1 (hwf m hp).2.ids htail map
      refine ⟨map', hmap', hreq.snoc (fun m' hm' heq => ?_) hpushed⟩
      have hnodup : (((ns.requestPieces ids).take (k + 1)).filterMap
          fun p => p.map Message.bundleId).Nodup :=
        (nodup_requestPieces h hids).sublist ((List.take_sublist _ _).filterMap _)
      rw [htake, List.filterMap_append, hp, List.nodup_append] at hnodup
      refine hnodup.2.2 m'.bundleId ?_ m.bundleId (by simp) heq
      exact List.mem_filterMap.2 ⟨some m', hm', rfl⟩
  · intro id v
    constructor
    · intro hv
      cases hv
    · rintro ⟨m, hm, -⟩
      rw [List.take_zero] at hm
      cases hm

end NetworkStat

end Ns2
