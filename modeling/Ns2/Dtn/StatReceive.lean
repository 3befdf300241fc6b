import Ns2.Dtn.StatMerge
import Ns2.Dtn.StatText

/-! What `update_network_stat` makes of a text of well-formed messages: each field is
read up to its separator, and what the substrings carry along from behind it is never
looked at. -/

namespace Ns2

open Str List

variable {id : List Char} {c : Char}

/-- The separators of the text. -/
def isSpecial (c : Char) : Bool :=
  c = '+' || c = '*' || c = '$' || c = '=' || c = '@' || c = '?' || c = '[' || c = ']' ||
    c = '\\' || c = '#'

/-- The ids of messages and nodes. -/
structure WfId (id : List Char) : Prop where
  head : id.head? = some 'R'
  clean : ∀ c ∈ id, isSpecial c = false

theorem WfId.of_all (hhead : id.head? = some 'R') (hall : (id.all fun c => !isSpecial c) = true) :
    WfId id :=
  ⟨hhead, fun c hc => by simpa using all_eq_true.1 hall c hc⟩

theorem WfId.not_mem (h : WfId id) (hc : isSpecial c = true) : c ∉ id := by
  intro hmem
  rw [h.clean c hmem] at hc
  cases hc

theorem WfId.ne_nil (h : WfId id) : id ≠ [] := by
  rintro rfl
  cases h.head

theorem isNumeric_of_isSpecial (h : isSpecial c = true) : isNumeric c = false := by
  simp only [isSpecial, Bool.or_eq_true, decide_eq_true_eq] at h
  rcases h with ((((((((rfl | rfl) | rfl) | rfl) | rfl) | rfl) | rfl) | rfl) | rfl) | rfl
  all_goals decide

theorem not_mem_showInt (h : isSpecial c = true) (n : ℤ) : c ∉ showInt n := by
  intro hmem
  have := isNumeric_of_mem_showInt c hmem
  rw [isNumeric_of_isSpecial h] at this
  cases this

theorem not_mem_showFloat (h : isSpecial c = true) (x : ℚ) : c ∉ showFloat x := by
  intro hmem
  have := isNumeric_of_mem_showFloat c hmem
  rw [isNumeric_of_isSpecial h] at this
  cases this

theorem stops_take {p : Char → Bool} {d : Char} (h : p d = false) (rest : List Char) (n : ℕ) :
    Stops p ((d :: rest).take n) := by
  cases n with
  | zero => exact stops_nil p
  | succ n => exact stops_cons h _

namespace NetworkStat

variable {ns : NetworkStat} {nodeId : List Char} {n : StatNode}
variable {c : Char}
variable {room axeLength i : ℕ} {a head : List Char} {msgs : List (List Char)}

theorem getNodeIdFromStat_append (hroom : 0 < room) (hid : '=' ∉ a) (rest : List Char) :
    getNodeIdFromStat room (a ++ '=' :: rest) = some a := by
  rw [getNodeIdFromStat, find_append hid, Option.bind_some, take_left]
  exact if_pos (Nat.lt_add_of_pos_right hroom)

/-- The array has no byte for the end of any node id. -/
theorem getNodeIdFromStat_zero (node : List Char) : getNodeIdFromStat 0 node = none := by
  rw [getNodeIdFromStat, Option.bind_eq_none_iff]
  intro n hn
  exact if_neg (by rw [length_take_of_le (find_lt hn).le]; exact lt_irrefl n)

/-- The record of the node that a report was printed from. -/
structure Decodes (ns : NetworkStat) (nodeId : List Char) (n : StatNode) (r : Report) : Prop where
  statVersion : r.statVersion = n.statVersion
  miStartIndex : r.miStartIndex = n.miStartIndex
  bitMap : ∀ k : ℤ, 0 ≤ k → k < ns.axeLength → r.bitMap k = n.bitMap k
  lm : |r.lm - ns.getNodeMeetingTime nodeId| ≤ 1 / 2000000

/-- What the code promises about the records that are sent. -/
structure WfNode (axeLength : ℕ) (n : StatNode) : Prop where
  version_nonneg : 0 ≤ n.statVersion
  version_le : n.statVersion ≤ axeLength
  index : n.miStartIndex = -1 ∨ (0 ≤ n.miStartIndex ∧ n.miStartIndex < axeLength)
  bits : ∀ k : ℤ, 0 ≤ k → k < axeLength → n.bitMap k = 0 ∨ n.bitMap k = 1

theorem WfNode.index_le (h : WfNode axeLength n) : n.miStartIndex ≤ axeLength := by
  rcases h.index with h | h <;> omega

def bitText (ns : NetworkStat) (n : StatNode) : List Char :=
  join ',' ((range ns.axeLength).map fun (k : ℕ) => showInt (n.bitMap k))

theorem not_mem_bitText (ns : NetworkStat) (n : StatNode) (h : isSpecial c = true) (hne : c ≠ ',') :
    c ∉ ns.bitText n := by
  intro hmem
  rcases mem_join hmem with hc | ⟨s, hs, hc⟩
  · exact hne hc
  · obtain ⟨k, -, rfl⟩ := mem_map.1 hs
    exact not_mem_showInt h _ hc

theorem nodeText_append (junk : List Char) : ns.nodeText nodeId n ++ junk =
    nodeId ++ '=' :: (showFloat (ns.getNodeMeetingTime nodeId) ++ '@' :: (showInt n.statVersion ++
      '?' :: (showInt n.miStartIndex ++ '[' :: (ns.bitText n ++ ']' :: junk)))) := by
  simp [nodeText, bitText]

theorem getNodeNumber_eq {d : Char} {rest : List Char} {k : ℤ} (hca : c ∉ a) (hda : d ∉ a)
    (hdc : d ≠ c) (hdk : d ∉ showInt k) (hd : Char.isDigit d = false) (hk : k ≤ axeLength) :
    getNodeNumber axeLength c d (a ++ c :: (showInt k ++ d :: rest)) = some k := by
  have hval := atoi_showInt k (stops_take hd rest a.length)
  rw [getNodeNumber, substr_field hca hda hdc hdk, Option.bind_some, hval,
    if_neg (not_lt.2 hk : ¬ k > axeLength)]

theorem getNodeBitMap_eq (ns : NetworkStat) (n : StatNode) (hopen : '[' ∉ a) (hclose : ']' ∉ a)
    (junk : List Char) : ∃ m, getNodeBitMap (a ++ '[' :: (ns.bitText n ++ ']' :: junk)) = some m ∧
      ∀ k : ℤ, 0 ≤ k → k < ns.axeLength → m k = n.bitMap k := by
  have hbits : ']' ∉ ns.bitText n := not_mem_bitText ns n (by decide) (by decide)
  rw [getNodeBitMap, substr_field hopen hclose (by decide) hbits]
  refine ⟨_, rfl, fun k hk hlt => ?_⟩
  obtain ⟨i, rfl⟩ := Int.eq_ofNat_of_zero_le hk
  have hpieces : ∀ s ∈ (range ns.axeLength).map fun (k : ℕ) => showInt (n.bitMap k),
      ',' ∉ s := by
    intro s hs hmem
    obtain ⟨k, -, rfl⟩ := mem_map.1 hs
    exact absurd (isNumeric_of_mem_showInt ',' hmem) (by decide)
  have hi : ((range ns.axeLength).map fun (k : ℕ) => showInt (n.bitMap k))[i]? =
      some (showInt (n.bitMap i)) := by
    rw [getElem?_map, getElem?_range (by omega)]
    rfl
  obtain ⟨j, hj, hjunk⟩ := segments_join hpieces hi ((']' :: junk).take a.length)
  have hstops : Stops Char.isDigit j := by
    rcases hjunk with rfl | hjunk
    · exact stops_nil _
    · intro c hc
      cases hlen : a.length with
      | zero =>
        rw [hlen] at hjunk
        obtain rfl : [] = j := Option.some.inj hjunk
        cases hc
      | succ l =>
        rw [hlen, take_succ_cons] at hjunk
        obtain ⟨t, ts, -, hseg⟩ := segments_eq_cons (c := ',') (a := [']']) (by decide) (junk.take l)
        rw [singleton_append] at hseg
        rw [hseg] at hjunk
        obtain rfl : [']'] ++ t = j := Option.some.inj hjunk
        obtain rfl : ']' = c := Option.some.inj hc
        decide
  have hseg : (segments ',' (ns.bitText n ++ (']' :: junk).take a.length))[i]? =
      some (showInt (n.bitMap i) ++ j) := hj
  dsimp only
  rw [if_pos hk, Int.toNat_natCast, hseg]
  exact atoi_showInt _ hstops

theorem getNodeReport_nodeText (hroom : 0 < room) (hid : WfId nodeId) (hn : WfNode ns.axeLength n)
    (junk : List Char) : ∃ r, getNodeReport room ns.axeLength (ns.nodeText nodeId n ++ junk) =
      some (nodeId, r) ∧ Decodes ns nodeId n r := by
  rw [nodeText_append]
  set t := showFloat (ns.getNodeMeetingTime nodeId) with ht
  have hfree : ∀ c, isSpecial c = true →
      c ∉ nodeId ∧ c ∉ t ∧ c ∉ showInt n.statVersion ∧ c ∉ showInt n.miStartIndex := fun c hc =>
    ⟨hid.not_mem hc, not_mem_showFloat hc _, not_mem_showInt hc _, not_mem_showInt hc _⟩
  have heq := hfree '=' (by decide)
  have hat := hfree '@' (by decide)
  have hquery := hfree '?' (by decide)
  have hopen := hfree '[' (by decide)
  have hclose := hfree ']' (by decide)
  have hnodeId := getNodeIdFromStat_append hroom heq.1
  have hlm : ∀ rest, ∃ lm, getNodeLm (nodeId ++ '=' :: (t ++ '@' :: rest)) = some lm ∧
      |lm - ns.getNodeMeetingTime nodeId| ≤ 1 / 2000000 := by
    intro rest
    refine ⟨atof (t ++ ('@' :: rest).take nodeId.length), ?_, ?_⟩
    · rw [getNodeLm, substr_field heq.1 hat.1 (by decide) hat.2.1]
      rfl
    · exact abs_atof_showFloat_sub_le _ (stops_take (by decide) _ _) (stops_take (by decide) _ _)
  have hversion : ∀ rest, getNodeStatVersion ns.axeLength
      ((nodeId ++ '=' :: t) ++ '@' :: (showInt n.statVersion ++ '?' :: rest)) =
      some n.statVersion := by
    intro rest
    apply getNodeNumber_eq
    · simp [hat]
    · simp [hquery]
    · decide
    · exact hquery.2.2.1
    · decide
    · exact hn.version_le
  have hindex : ∀ rest, getMiIndexFromStat ns.axeLength ((nodeId ++ '=' ::
      (t ++ '@' :: showInt n.statVersion)) ++ '?' :: (showInt n.miStartIndex ++ '[' :: rest)) =
      some n.miStartIndex := by
    intro rest
    apply getNodeNumber_eq
    · simp [hquery]
    · simp [hopen]
    · decide
    · exact hopen.2.2.2
    · decide
    · exact hn.index_le
  obtain ⟨m, hm, hbits⟩ := getNodeBitMap_eq ns n
    (a := nodeId ++ '=' :: (t ++ '@' :: (showInt n.statVersion ++ '?' :: showInt n.miStartIndex)))
    (by simp [hopen]) (by simp [hclose]) junk
  simp only [append_assoc, cons_append] at hversion hindex hm
  obtain ⟨lm, hlm, hclose⟩ := hlm (showInt n.statVersion ++ '?' :: (showInt n.miStartIndex ++
    '[' :: (ns.bitText n ++ ']' :: junk)))
  refine ⟨⟨m, lm, n.statVersion, n.miStartIndex⟩, ?_, rfl, rfl, hbits, hclose⟩
  rw [getNodeReport, hnodeId, Option.bind_some, hlm, Option.bind_some, hversion, Option.bind_some,
    hindex, Option.bind_some, hm, Option.map_some]

theorem getNumberOfNodes_join {nodes : List (List Char)} {tail : List Char} (hne : nodes ≠ [])
    (hhead : '*' ∉ head ∧ '$' ∉ head) (hnodes : ∀ s ∈ nodes, '*' ∉ s ∧ '$' ∉ s)
    (htail : '*' ∉ tail ∧ '$' ∉ tail) :
    getNumberOfNodesForABundle (head ++ '*' :: (join '$' nodes ++ tail)) = nodes.length := by
  have hstar : (head ++ '*' :: (join '$' nodes ++ tail)).count '*' = 1 := by
    rw [count_append, count_cons_self, count_append,
      count_eq_zero_of_not_mem hhead.1, count_eq_zero_of_not_mem htail.1,
      count_eq_zero_of_not_mem (not_mem_join (by decide) fun s hs => (hnodes s hs).1)]
  have hdollar : (head ++ '*' :: (join '$' nodes ++ tail)).count '$' = nodes.length - 1 := by
    rw [count_append, count_cons_of_ne (by decide), count_append,
      count_eq_zero_of_not_mem hhead.2, count_eq_zero_of_not_mem htail.2,
      count_join fun s hs => (hnodes s hs).2]
    omega
  have hpos := length_pos_iff.2 hne
  rw [getNumberOfNodesForABundle, hstar, hdollar]
  by_cases hone : nodes.length - 1 = 0
  · rw [if_pos ⟨rfl, hone⟩]
    omega
  · rw [if_neg fun h => hone h.2, if_neg (by decide), Nat.sub_add_cancel hpos]

/-- Node `i` of a message text is read from its start on, with what comes behind it. -/
theorem getNodeFromStat_join {nodes : List (List Char)} {tail : List Char}
    (hhead : '*' ∉ head ∧ '$' ∉ head ∧ '\\' ∉ head)
    (hnodes : ∀ s ∈ nodes, '*' ∉ s ∧ '$' ∉ s ∧ '\\' ∉ s)
    (htail : '*' ∉ tail ∧ '$' ∉ tail ∧ '\\' ∉ tail) {s : List Char} (hi : nodes[i]? = some s)
    (hs : i ≠ 0 → s.head? = some 'R') :
    ∃ junk, getNodeFromStat (head ++ '*' :: (join '$' nodes ++ tail)) (i + 1) =
      some (s ++ junk) ∧ ∀ c, junk.head? = some c → c = '$' ∨ tail.head? = some c := by
  have hlen : i < nodes.length := (List.getElem?_eq_some_iff.1 hi).1
  have hnumber : getNumberOfNodesForABundle (head ++ '*' :: (join '$' nodes ++ tail)) ≥ i + 1 := by
    rw [getNumberOfNodes_join (List.ne_nil_of_length_pos (by omega)) ⟨hhead.1, hhead.2.1⟩
      (fun s hs => ⟨(hnodes s hs).1, (hnodes s hs).2.1⟩) ⟨htail.1, htail.2.1⟩]
    exact hlen
  rw [getNodeFromStat, if_pos hnumber]
  cases nodes with
  | nil => cases hi
  | cons n nodes =>
    have hn := hnodes n mem_cons_self
    cases i with
    | zero =>
      obtain rfl : n = s := Option.some.inj hi
      rw [if_pos rfl]
      cases nodes with
      | nil =>
        have hend : '$' ∉ head ++ '*' :: (n ++ tail) := by simp [hhead, hn, htail]
        have hjoin : join '$' [n] = n := append_nil n
        exact ⟨tail, by rw [hjoin, substr_field_end hhead.1 hend], fun _ => Or.inr⟩
      | cons m nodes =>
        refine ⟨('$' :: (join '$' (m :: nodes) ++ tail)).take head.length, ?_, fun c hc => ?_⟩
        · rw [join_cons_cons, append_assoc, cons_append,
            substr_field hhead.1 hhead.2.1 (by decide) hn.2.1]
        · cases hhead : head.length with
          | zero =>
            rw [hhead] at hc
            cases hc
          | succ l =>
            rw [hhead] at hc
            exact Or.inl (Option.some.inj hc).symm
    | succ i =>
      have hrest : ∀ u ∈ nodes, '*' ∉ u ∧ '$' ∉ u ∧ '\\' ∉ u :=
        fun u hu => hnodes u (mem_cons_of_mem _ hu)
      have htext : head ++ '*' :: (join '$' (n :: nodes) ++ tail) =
          join '$' ((head ++ '*' :: n) :: nodes) ++ tail := by
        simp [join]
      have hskip : skip '$' (i + 1) (join '$' ((head ++ '*' :: n) :: nodes) ++ tail) =
          join '$' (nodes.drop i) ++ tail := by
        apply skip_join (c := '$') (l := (head ++ '*' :: n) :: nodes)
        · intro u hu
          rcases mem_cons.1 hu with rfl | hu
          · simp [hhead, hn]
          · exact (hrest u hu).2.1
        · exact hlen
      have hsome : nodes[i]? = some s := hi
      have hdrop : nodes.drop i = s :: nodes.drop (i + 1) := by
        obtain ⟨hlt, rfl⟩ := List.getElem?_eq_some_iff.1 hsome
        exact List.drop_eq_getElem_cons hlt
      have hfree : '\\' ∉ join '$' (nodes.drop i) ++ tail := by
        rw [mem_append, not_or]
        exact ⟨not_mem_join (by decide) fun u hu => (hrest u (mem_of_mem_drop hu)).2.2,
          htail.2.2⟩
      rw [if_neg (by omega), htext, Nat.add_sub_cancel, hskip]
      dsimp only
      rw [find_eq_none hfree, hdrop, join, append_assoc,
        find_head (hs (Nat.succ_ne_zero i)), Option.bind_some]
      rw [substr_npos]
      refine ⟨_, rfl, fun c hc => ?_⟩
      cases hrest : nodes.drop (i + 1) with
      | nil =>
        rw [hrest] at hc
        exact Or.inr hc
      | cons u rest =>
        rw [hrest] at hc
        exact Or.inl (Option.some.inj hc).symm

theorem getNumberOfMessages_join (hne : msgs ≠ []) (hmsgs : ∀ m ∈ msgs, '\\' ∉ m ∧ '#' ∉ m) :
    getNumberOfMessagesFromStat (join '\\' msgs ++ ['#']) = some msgs.length := by
  have hpos := length_pos_iff.2 hne
  have hfree : '#' ∉ join '\\' msgs := not_mem_join (by decide) fun m hm => (hmsgs m hm).2
  have htake : (join '\\' msgs ++ ['#']).takeWhile (fun c => c ≠ '#') = join '\\' msgs := by
    refine takeWhile_of_stops (fun c hc => ?_) (stops_cons (by decide) [])
    exact decide_eq_true fun h => hfree (h ▸ hc)
  rw [getNumberOfMessagesFromStat, if_pos (by simp), htake,
    count_join fun m hm => (hmsgs m hm).1, Nat.sub_add_cancel hpos]

theorem getMessageIFromStat_join (hmsgs : ∀ m ∈ msgs, '\\' ∉ m ∧ '#' ∉ m) {m : List Char}
    (hi : msgs[i]? = some m) (hm : i ≠ 0 → m.head? = some 'R') :
    ∃ tail, (tail = [] ∨ tail = ['#']) ∧
      getMessageIFromStat (join '\\' msgs ++ ['#']) (i + 1) = some (m ++ tail) := by
  have hlen : i < msgs.length := (List.getElem?_eq_some_iff.1 hi).1
  have hnumber := getNumberOfMessages_join (List.ne_nil_of_length_pos (by omega)) hmsgs
  have hdrop : msgs.drop i = m :: msgs.drop (i + 1) := by
    obtain ⟨hlt, rfl⟩ := List.getElem?_eq_some_iff.1 hi
    exact List.drop_eq_getElem_cons hlt
  have hfree := hmsgs m (List.mem_of_getElem? hi)
  rw [getMessageIFromStat, if_neg (by simp)]
  by_cases hzero : i = 0
  · subst hzero
    rw [drop_zero] at hdrop
    refine ⟨[], Or.inl rfl, ?_⟩
    rw [if_pos rfl, hnumber, Option.bind_some, append_nil, hdrop]
    cases hrest : msgs.drop 1 with
    | nil =>
      have hjoin : join '\\' [m] ++ ['#'] = m ++ '#' :: [] := by simp [join]
      rw [length_singleton, if_pos rfl, hjoin, find_append hfree.2]
      exact (substr_zero _ _).trans (by rw [take_left])
    | cons u rest =>
      rw [if_neg (by simp), join_cons_cons, append_assoc, cons_append,
        find_append hfree.1]
      exact (substr_zero _ _).trans (by rw [take_left])
  · have hskip := skip_join (c := '\\') (fun u hu => (hmsgs u hu).1) hlen ['#']
    rw [if_neg (by omega), Nat.add_sub_cancel, hskip, hdrop]
    dsimp only
    cases hrest : msgs.drop (i + 1) with
    | nil =>
      have hend : '\\' ∉ m ++ ['#'] := by simp [hfree]
      have hjoin : join '\\' [m] = m := append_nil m
      refine ⟨['#'], Or.inr rfl, ?_⟩
      rw [hjoin, find_head (hm hzero), find_eq_none hend, Option.bind_some, substr_npos]
    | cons u rest =>
      refine ⟨[], Or.inl rfl, ?_⟩
      rw [join_cons_cons, append_assoc, cons_append, find_head (hm hzero),
        find_append hfree.1, Option.bind_some, substr_zero, take_left, append_nil]

theorem not_mem_nodeText (ns : NetworkStat) (n : StatNode) (hid : WfId nodeId)
    (h : isSpecial c = true) (hne : c ≠ '=' ∧ c ≠ '@' ∧ c ≠ '?' ∧ c ≠ '[' ∧ c ≠ ']' ∧ c ≠ ',') :
    c ∉ ns.nodeText nodeId n := by
  obtain ⟨heq, hat, hquery, hopen, hclose, hcomma⟩ := hne
  have hbits := not_mem_bitText ns n h hcomma
  rw [← append_nil (ns.nodeText nodeId n), nodeText_append]
  simp [hid.not_mem h, not_mem_showFloat h, not_mem_showInt h, hbits, heq, hat, hquery, hopen,
    hclose]

theorem head_nodeText (hid : WfId nodeId) : (ns.nodeText nodeId n).head? = some 'R' := by
  rw [nodeText, head?_append, hid.head]
  rfl

/-- The nodes of a list with well-formed ids and records, each id once. -/
structure WfNodes (axeLength : ℕ) (nodes : List (List Char × StatNode)) : Prop where
  ids : ∀ e ∈ nodes, WfId e.1
  wf : ∀ e ∈ nodes, WfNode axeLength e.2
  nodup : (nodes.map Prod.fst).Nodup

/-- The message after the reports about the nodes that `ns` sends. -/
structure Applied (ns : NetworkStat) (nodes : List (List Char × StatNode)) (dm dm' : Message) :
    Prop where
  bundleId : dm'.bundleId = dm.bundleId
  ttl : dm'.ttl = dm.ttl
  found : ∀ e ∈ nodes, ∃ r, Decodes ns e.1 e.2 r ∧
    dm'.mapNodes.find e.1 = some (r.receive ns.axeLength (dm.mapNodes.find e.1))
  other : ∀ nodeId, nodeId ∉ nodes.map Prod.fst → dm'.mapNodes.find nodeId = dm.mapNodes.find nodeId

theorem Applied.nil (ns : NetworkStat) (dm : Message) : Applied ns [] dm dm :=
  ⟨rfl, rfl, (fun _ he => nomatch he), fun _ _ => rfl⟩

theorem Applied.snoc {nodes : List (List Char × StatNode)} {dm dm' : Message}
    (h : Applied ns nodes dm dm') (hnew : nodeId ∉ nodes.map Prod.fst) (hn : WfNode ns.axeLength n)
    {r : Report} (hr : Decodes ns nodeId n r) :
    ∃ dm'', dm'.addNode ns.axeLength nodeId r = some dm'' ∧
      Applied ns (nodes ++ [(nodeId, n)]) dm dm'' := by
  have hle : r.statVersion ≤ ns.axeLength := hr.statVersion ▸ hn.version_le
  obtain ⟨dm'', hdm'', hid, httl, hfind, hother⟩ := dm'.addNode_eq nodeId hle
  refine ⟨dm'', hdm'', hid.trans h.bundleId, httl.trans h.ttl, fun e he => ?_, fun k hk => ?_⟩
  · rcases mem_append.1 he with he | he
    · have hne : e.1 ≠ nodeId := fun heq => hnew (heq ▸ mem_map_of_mem he)
      obtain ⟨r', hr', hfind'⟩ := h.found e he
      exact ⟨r', hr', (hother e.1 hne).trans hfind'⟩
    · obtain rfl := mem_singleton.1 he
      exact ⟨r, hr, by rw [hfind, h.other nodeId hnew]⟩
  · rw [map_append, mem_append, not_or, map_singleton, mem_singleton] at hk
    rw [hother k hk.2, h.other k hk.1]

/-- The text of a message with some of its nodes. -/
def messageText (ns : NetworkStat) (m : Message) (nodes : List (List Char × StatNode)) : List Char :=
  m.bundleId ++ '+' :: (showFloat m.ttl ++
    if nodes = [] then [] else '*' :: join '$' (nodes.map fun e => ns.nodeText e.1 e.2))

section

variable {m : Message} {nodes : List (List Char × StatNode)} {tail : List Char}

theorem head_free (hid : WfId m.bundleId) {c : Char} (h : isSpecial c = true) (hne : c ≠ '+') :
    c ∉ m.bundleId ++ '+' :: showFloat m.ttl := by
  simp [hid.not_mem h, not_mem_showFloat h, hne]

theorem tail_free (htail : tail = [] ∨ tail = ['#']) {c : Char} (hne : c ≠ '#') : c ∉ tail := by
  rcases htail with rfl | rfl
  · exact not_mem_nil
  · simpa using hne

theorem nodeText_free (ns : NetworkStat) (hids : ∀ e ∈ nodes, WfId e.1) :
    ∀ s ∈ nodes.map (fun e => ns.nodeText e.1 e.2), '*' ∉ s ∧ '$' ∉ s ∧ '\\' ∉ s ∧ '#' ∉ s := by
  intro s hs
  obtain ⟨e, he, rfl⟩ := mem_map.1 hs
  have hfree := fun (c : Char) => not_mem_nodeText ns e.2 (hids e he) (c := c)
  exact ⟨hfree '*' (by decide) (by decide), hfree '$' (by decide) (by decide),
    hfree '\\' (by decide) (by decide), hfree '#' (by decide) (by decide)⟩

theorem messageText_cons (ns : NetworkStat) (m : Message) (hne : nodes ≠ []) (tail : List Char) :
    ns.messageText m nodes ++ tail = (m.bundleId ++ '+' :: showFloat m.ttl) ++
      '*' :: (join '$' (nodes.map fun e => ns.nodeText e.1 e.2) ++ tail) := by
  simp [messageText, hne]

theorem messageText_nil (tail : List Char) :
    ns.messageText m [] ++ tail = m.bundleId ++ '+' :: (showFloat m.ttl ++ tail) := by
  simp [messageText]

section

variable (hid : WfId m.bundleId)
include hid

theorem getNodeFromStat_messageText (hroom : 0 < room) (hnodes : WfNodes ns.axeLength nodes)
    (htail : tail = [] ∨ tail = ['#']) {i : ℕ} {e : List Char × StatNode}
    (hi : nodes[i]? = some e) :
    ∃ node r, getNodeFromStat (ns.messageText m nodes ++ tail) (i + 1) = some node ∧
      getNodeReport room ns.axeLength node = some (e.1, r) ∧ Decodes ns e.1 e.2 r := by
  have he := List.mem_of_getElem? hi
  have hne : nodes ≠ [] := ne_nil_of_mem he
  have hi' : (nodes.map fun e => ns.nodeText e.1 e.2)[i]? = some (ns.nodeText e.1 e.2) := by
    rw [getElem?_map, hi]
    rfl
  have hpieces := nodeText_free ns hnodes.ids
  obtain ⟨junk, hjunk, -⟩ := getNodeFromStat_join
    ⟨head_free hid (by decide) (by decide), head_free hid (by decide) (by decide),
      head_free hid (by decide) (by decide)⟩
    (fun s hs => ⟨(hpieces s hs).1, (hpieces s hs).2.1, (hpieces s hs).2.2.1⟩)
    ⟨tail_free htail (by decide), tail_free htail (by decide), tail_free htail (by decide)⟩ hi'
    fun _ => head_nodeText (hnodes.ids e he)
  obtain ⟨r, hr, hdec⟩ := getNodeReport_nodeText hroom (hnodes.ids e he) (hnodes.wf e he) junk
  exact ⟨_, r, by rw [messageText_cons ns m hne, hjunk], hr, hdec⟩

theorem getNumberOfNodes_messageText (hids : ∀ e ∈ nodes, WfId e.1)
    (htail : tail = [] ∨ tail = ['#']) :
    getNumberOfNodesForABundle (ns.messageText m nodes ++ tail) = nodes.length := by
  by_cases hne : nodes = []
  · subst hne
    have hstar : '*' ∉ ns.messageText m [] ++ tail := by
      have := head_free (m := m) hid (c := '*') (by decide) (by decide)
      rw [messageText_nil, ← cons_append, ← append_assoc, mem_append, not_or]
      exact ⟨this, tail_free htail (by decide)⟩
    rw [getNumberOfNodesForABundle, count_eq_zero_of_not_mem hstar]
    rfl
  · have hpieces := nodeText_free ns hids
    rw [messageText_cons ns m hne, getNumberOfNodes_join, length_map]
    · simpa using hne
    · exact ⟨head_free hid (by decide) (by decide), head_free hid (by decide) (by decide)⟩
    · exact fun s hs => ⟨(hpieces s hs).1, (hpieces s hs).2.1⟩
    · exact ⟨tail_free htail (by decide), tail_free htail (by decide)⟩

theorem receiveNodes_messageText (hroom : nodes ≠ [] → 0 < room)
    (hnodes : WfNodes ns.axeLength nodes) (htail : tail = [] ∨ tail = ['#']) (dm : Message) :
    ∃ dm', receiveNodes room ns.axeLength (ns.messageText m nodes ++ tail) dm = some dm' ∧
      Applied ns nodes dm dm' := by
  rw [receiveNodes, getNumberOfNodes_messageText hid hnodes.ids htail]
  suffices h : ∃ dm', _ ∧ Applied ns (nodes.take nodes.length) dm dm' by
    rwa [take_length] at h
  refine foldlM_range_of_step (P := fun k dm' => Applied ns (nodes.take k) dm dm') ?_
    (Applied.nil ns dm)
  intro k hk dm' happ
  have hi : nodes[k]? = some nodes[k] := getElem?_eq_getElem hk
  obtain ⟨node, r, hnode, hr, hdec⟩ := getNodeFromStat_messageText hid
    (hroom (ne_nil_of_mem (List.mem_of_getElem? hi))) hnodes htail hi
  have htake : nodes.take (k + 1) = nodes.take k ++ [nodes[k]] := (take_append_getElem hk).symm
  have hnew : nodes[k].1 ∉ (nodes.take k).map Prod.fst := by
    have hsub : ((nodes.take (k + 1)).map Prod.fst).Nodup :=
      hnodes.nodup.sublist ((take_sublist _ _).map _)
    rw [htake, map_append, map_singleton, nodup_append] at hsub
    exact fun hmem => hsub.2.2 _ hmem _ (mem_singleton_self _) rfl
  obtain ⟨dm'', hdm'', happ'⟩ := happ.snoc hnew (hnodes.wf _ (getElem_mem hk)) hdec
  refine ⟨dm'', ?_, htake ▸ happ'⟩
  rw [hnode, Option.bind_some, hr]
  exact hdm''

theorem receiveTimes_messageText (hroom : nodes ≠ [] → 0 < room)
    (hnodes : WfNodes ns.axeLength nodes) (htail : tail = [] ∨ tail = ['#']) (R : NetworkStat) :
    ∃ R', receiveTimes room (ns.messageText m nodes ++ tail) R = some R' ∧
      R'.messagesMatrix = R.messagesMatrix ∧ R'.axeLength = R.axeLength := by
  rw [receiveTimes, getNumberOfNodes_messageText hid hnodes.ids htail]
  refine foldlM_range_of_step (P := fun _ (R' : NetworkStat) => R'.messagesMatrix = R.messagesMatrix ∧
    R'.axeLength = R.axeLength) ?_ ⟨rfl, rfl⟩
  intro k hk R' hR'
  have hi : nodes[k]? = some nodes[k] := getElem?_eq_getElem hk
  obtain ⟨node, r, hnode, hr, -⟩ := getNodeFromStat_messageText hid
    (hroom (ne_nil_of_mem (List.mem_of_getElem? hi))) hnodes htail hi
  obtain ⟨nodeId, hnodeId, hr⟩ := Option.bind_eq_some_iff.1 hr
  obtain ⟨lm, hlm, -⟩ := Option.bind_eq_some_iff.1 hr
  exact ⟨R'.addNode nodeId lm,
    by rw [hnode, Option.bind_some, hnodeId, Option.bind_some, hlm, Option.map_some], hR'⟩

theorem getBundleId_messageText :
    getBundleId (ns.messageText m nodes ++ tail) = some m.bundleId := by
  rw [messageText, append_assoc, cons_append, getBundleId]
  exact substr_find (hid.not_mem (by decide)) _

end

theorem getBundleTtl_messageText (ns : NetworkStat) (nodes : List (List Char × StatNode))
    (hid : WfId m.bundleId) (htail : tail = [] ∨ tail = ['#']) :
    ∃ ttl, getBundleTtl (ns.messageText m nodes ++ tail) = some ttl ∧
      |ttl - m.ttl| ≤ 1 / 2000000 := by
  have hplus : '+' ∉ m.bundleId := hid.not_mem (by decide)
  have hstar : '*' ∉ m.bundleId := hid.not_mem (by decide)
  by_cases hne : nodes = []
  · subst hne
    have hfree : '*' ∉ m.bundleId ++ '+' :: (showFloat m.ttl ++ tail) := by
      simp [hstar, not_mem_showFloat, isSpecial, tail_free htail]
    refine ⟨atof (showFloat m.ttl ++ tail), ?_, ?_⟩
    · rw [messageText_nil, getBundleTtl, substr_field_end hplus hfree, Option.map_some]
    · apply abs_atof_showFloat_sub_le
      · rcases htail with rfl | rfl
        · exact stops_nil _
        · exact stops_cons (by decide) _
      · rcases htail with rfl | rfl
        · exact stops_nil _
        · exact stops_cons (by decide) _
  · have hcons := messageText_cons ns m hne tail
    rw [append_assoc, cons_append] at hcons
    refine ⟨_, ?_, abs_atof_showFloat_sub_le m.ttl
      (stops_take (d := '*') (by decide) (join '$' (nodes.map fun e => ns.nodeText e.1 e.2) ++ tail)
        m.bundleId.length) (stops_take (by decide) _ _)⟩
    rw [hcons, getBundleTtl, substr_field hplus hstar (by decide)
      (not_mem_showFloat (by decide) _), Option.map_some]

/-- What is known about a message, and what was known before the texts of its nodes came in. -/
structure Merged (ns : NetworkStat) (m : Message) (nodes : List (List Char × StatNode))
    (old : Option Message) (dm' : Message) : Prop where
  ttl : |dm'.ttl - m.ttl| ≤ 1 / 2000000
  found : ∀ e ∈ nodes, ∃ r, Decodes ns e.1 e.2 r ∧ dm'.mapNodes.find e.1 =
    some (r.receive ns.axeLength (old.bind fun dm => dm.mapNodes.find e.1))
  other : ∀ nodeId, nodeId ∉ nodes.map Prod.fst →
    dm'.mapNodes.find nodeId = old.bind fun dm => dm.mapNodes.find nodeId

theorem updateMessageI_messageText (hroom : nodes ≠ [] → 0 < room) (hid : WfId m.bundleId)
    (hnodes : WfNodes ns.axeLength nodes) (htail : tail = [] ∨ tail = ['#']) {R : NetworkStat}
    (haxe : R.axeLength = ns.axeLength) :
    ∃ R', R.updateMessageI room (ns.messageText m nodes ++ tail) = some R' ∧
      R'.axeLength = R.axeLength ∧
      (∃ dm', R'.messagesMatrix.find m.bundleId = some dm' ∧
        Merged ns m nodes (R.messagesMatrix.find m.bundleId) dm') ∧
      ∀ id, id ≠ m.bundleId → R'.messagesMatrix.find id = R.messagesMatrix.find id := by
  obtain ⟨ttl, httl, hclose⟩ := getBundleTtl_messageText ns nodes hid htail
  rw [updateMessageI, getBundleId_messageText hid, Option.bind_some, if_neg hid.ne_nil]
  cases hold : R.messagesMatrix.find m.bundleId with
  | none =>
    obtain ⟨R₁, hR₁, hmatrix, haxe₁⟩ := receiveTimes_messageText hid hroom hnodes htail R
    obtain ⟨dm', hdm', happ⟩ := receiveNodes_messageText hid hroom hnodes htail
      ⟨m.bundleId, ttl, OrdMap.empty⟩
    refine ⟨R₁.putMessage dm' m.bundleId, ?_, haxe₁, ⟨dm', OrdMap.find_set_self .., ?_⟩, ?_⟩
    · rw [addMessage, httl, Option.bind_some, hold]
      rw [hR₁, Option.bind_some, haxe₁, haxe, hdm', Option.map_some]
    · refine ⟨?_, fun e he => ?_, fun nodeId hnodeId => ?_⟩
      · rw [happ.ttl]
        exact hclose
      · obtain ⟨r, hr, hfind⟩ := happ.found e he
        exact ⟨r, hr, hfind⟩
      · exact happ.other nodeId hnodeId
    · intro id hne
      rw [putMessage, OrdMap.find_set_of_ne hne, hmatrix]
  | some dm =>
    obtain ⟨dm', hdm', happ⟩ := receiveNodes_messageText hid hroom hnodes htail
      { dm with ttl := ttl }
    refine ⟨R.putMessage dm' m.bundleId, ?_, rfl, ⟨dm', OrdMap.find_set_self .., ?_⟩, ?_⟩
    · dsimp only
      rw [updateMessage, httl, Option.bind_some, haxe, hdm', Option.map_some]
    · refine ⟨?_, fun e he => ?_, fun nodeId hnodeId => ?_⟩
      · rw [happ.ttl]
        exact hclose
      · obtain ⟨r, hr, hfind⟩ := happ.found e he
        exact ⟨r, hr, hfind⟩
      · exact happ.other nodeId hnodeId
    · intro id hne
      rw [putMessage, OrdMap.find_set_of_ne hne]

theorem messageText_free (hid : WfId m.bundleId) (hids : ∀ e ∈ nodes, WfId e.1) :
    '\\' ∉ ns.messageText m nodes ∧ '#' ∉ ns.messageText m nodes := by
  have hhead : ∀ c, isSpecial c = true → c ≠ '+' → c ∉ m.bundleId ∧ c ∉ showFloat m.ttl :=
    fun c hc _ => ⟨hid.not_mem hc, not_mem_showFloat hc _⟩
  have hback := hhead '\\' (by decide) (by decide)
  have hhash := hhead '#' (by decide) (by decide)
  have hpieces := nodeText_free ns hids
  have hjoin : '\\' ∉ join '$' (nodes.map fun e => ns.nodeText e.1 e.2) ∧
      '#' ∉ join '$' (nodes.map fun e => ns.nodeText e.1 e.2) :=
    ⟨not_mem_join (by decide) fun s hs => (hpieces s hs).2.2.1,
      not_mem_join (by decide) fun s hs => (hpieces s hs).2.2.2⟩
  unfold messageText
  split_ifs
  · simp [hback, hhash]
  · simp [hback, hhash, hjoin]

theorem head_messageText (hid : WfId m.bundleId) : (ns.messageText m nodes).head? = some 'R' := by
  rw [messageText, head?_append, hid.head]
  rfl

end

/-- A message with nodes is not read. -/
theorem updateMessageI_zero {text id : List Char} (hid : getBundleId text = some id) (hne : id ≠ [])
    (hnodes : 0 < getNumberOfNodesForABundle text) (R : NetworkStat) :
    R.updateMessageI 0 text = none := by
  have hmem : 0 ∈ range (getNumberOfNodesForABundle text) := List.mem_range.2 hnodes
  have htimes : ∀ R, receiveTimes 0 text R = none := by
    apply foldlM_eq_none hmem
    simp [getNodeIdFromStat_zero]
  have hreports : ∀ dm, receiveNodes 0 R.axeLength text dm = none := by
    apply foldlM_eq_none hmem
    simp [getNodeReport, getNodeIdFromStat_zero]
  rw [updateMessageI, hid, Option.bind_some, if_neg hne]
  cases R.messagesMatrix.find id with
  | none => simp [addMessage, htimes]
  | some dm => simp [updateMessage, hreports]

/-- Nor is a text in which any message has nodes. -/
theorem updateNetworkStat_zero (hmsgs : ∀ t ∈ msgs, '\\' ∉ t ∧ '#' ∉ t)
    (hhead : ∀ t ∈ msgs, t.head? = some 'R') {t : List Char} (ht : t ∈ msgs)
    (hid : ∀ tail, ∃ id, getBundleId (t ++ tail) = some id ∧ id ≠ [])
    (hnodes : ∀ tail, tail = [] ∨ tail = ['#'] → 0 < getNumberOfNodesForABundle (t ++ tail))
    (R : NetworkStat) : R.updateNetworkStat 0 (join '\\' msgs ++ ['#']) = none := by
  obtain ⟨i, hi⟩ := List.mem_iff_getElem?.1 ht
  have hlen := (List.getElem?_eq_some_iff.1 hi).1
  obtain ⟨tail, htail, hmsg⟩ := getMessageIFromStat_join hmsgs hi fun _ => hhead t ht
  obtain ⟨id, hid, hne⟩ := hid tail
  rw [updateNetworkStat, if_neg (by simp),
    getNumberOfMessages_join (List.ne_nil_of_mem ht) hmsgs, Option.bind_some]
  refine foldlM_eq_none (List.mem_range.2 hlen) (fun ns => ?_) R
  rw [hmsg, Option.bind_some, updateMessageI_zero hid hne (hnodes tail htail)]

/-- A stat text with messages of different ids. -/
structure WfText (ns : NetworkStat) (msgs : List (Message × List (List Char × StatNode))) :
    Prop where
  ids : ∀ p ∈ msgs, WfId p.1.bundleId
  nodes : ∀ p ∈ msgs, WfNodes ns.axeLength p.2
  nodup : (msgs.map fun p => p.1.bundleId).Nodup

def statText (ns : NetworkStat) (msgs : List (Message × List (List Char × StatNode))) : List Char :=
  join '\\' (msgs.map fun p => ns.messageText p.1 p.2) ++ ['#']

theorem WfText.free {msgs : List (Message × List (List Char × StatNode))} (h : WfText ns msgs) :
    ∀ t ∈ msgs.map (fun p => ns.messageText p.1 p.2), '\\' ∉ t ∧ '#' ∉ t := by
  intro t ht
  obtain ⟨p, hp, rfl⟩ := mem_map.1 ht
  exact messageText_free (h.ids p hp) (h.nodes p hp).ids

theorem updateNetworkStat_statText {msgs : List (Message × List (List Char × StatNode))}
    (hroom : ∀ p ∈ msgs, p.2 ≠ [] → 0 < room) (hne : msgs ≠ []) (hwf : WfText ns msgs)
    {R : NetworkStat} (haxe : R.axeLength = ns.axeLength) :
    ∃ R', R.updateNetworkStat room (ns.statText msgs) = some R' ∧
      (∀ p ∈ msgs, ∃ dm', R'.messagesMatrix.find p.1.bundleId = some dm' ∧
        Merged ns p.1 p.2 (R.messagesMatrix.find p.1.bundleId) dm') ∧
      ∀ id, id ∉ msgs.map (fun p => p.1.bundleId) →
        R'.messagesMatrix.find id = R.messagesMatrix.find id := by
  have hfree := hwf.free
  have hnumber := getNumberOfMessages_join (by simpa using hne) hfree
  rw [length_map] at hnumber
  rw [updateNetworkStat, if_neg (by simp [statText]), statText, hnumber, Option.bind_some]
  suffices h : ∃ R' : NetworkStat, _ ∧ R'.axeLength = R.axeLength ∧
      (∀ p ∈ msgs.take msgs.length, ∃ dm', R'.messagesMatrix.find p.1.bundleId = some dm' ∧
        Merged ns p.1 p.2 (R.messagesMatrix.find p.1.bundleId) dm') ∧
      ∀ id, id ∉ (msgs.take msgs.length).map (fun p => p.1.bundleId) →
        R'.messagesMatrix.find id = R.messagesMatrix.find id by
    rw [take_length] at h
    obtain ⟨R', hR', -, hrest⟩ := h
    exact ⟨R', hR', hrest⟩
  refine foldlM_range_of_step (P := fun k (R' : NetworkStat) => R'.axeLength = R.axeLength ∧
    (∀ p ∈ msgs.take k, ∃ dm', R'.messagesMatrix.find p.1.bundleId = some dm' ∧
      Merged ns p.1 p.2 (R.messagesMatrix.find p.1.bundleId) dm') ∧
    ∀ id, id ∉ (msgs.take k).map (fun p => p.1.bundleId) →
      R'.messagesMatrix.find id = R.messagesMatrix.find id) ?_
    ⟨rfl, fun p hp => by simp at hp, fun _ _ => rfl⟩
  rintro k hk R' ⟨haxe', hdone, hleft⟩
  have hi : (msgs.map fun p => ns.messageText p.1 p.2)[k]? =
      some (ns.messageText msgs[k].1 msgs[k].2) := by
    rw [getElem?_map, getElem?_eq_getElem hk]
    rfl
  have hmem := getElem_mem hk
  obtain ⟨tail, htail, hmsg⟩ := getMessageIFromStat_join hfree hi
    fun _ => head_messageText (hwf.ids _ hmem)
  obtain ⟨R'', hR'', haxe'', ⟨dm', hdm', hmerged⟩, hother⟩ := updateMessageI_messageText
    (hroom _ hmem) (hwf.ids _ hmem) (hwf.nodes _ hmem) htail (haxe'.trans haxe)
  have htake : msgs.take (k + 1) = msgs.take k ++ [msgs[k]] := (take_append_getElem hk).symm
  have hnew : msgs[k].1.bundleId ∉ (msgs.take k).map fun p => p.1.bundleId := by
    have hsub : ((msgs.take (k + 1)).map fun p => p.1.bundleId).Nodup :=
      hwf.nodup.sublist ((take_sublist _ _).map _)
    rw [htake, map_append, map_singleton, nodup_append] at hsub
    exact fun hmem => hsub.2.2 _ hmem _ (mem_singleton_self _) rfl
  refine ⟨R'', by rw [hmsg, Option.bind_some, hR''], haxe''.trans haxe', fun p hp => ?_,
    fun id hid => ?_⟩
  · rw [htake] at hp
    rcases mem_append.1 hp with hp | hp
    · have hne : p.1.bundleId ≠ msgs[k].1.bundleId := by
        intro heq
        refine hnew (heq ▸ ?_)
        exact mem_map.2 ⟨p, hp, rfl⟩
      rw [hother _ hne]
      exact hdone p hp
    · rw [mem_singleton.1 hp]
      rw [hleft _ hnew] at hmerged
      exact ⟨dm', hdm', hmerged⟩
  · rw [htake, map_append, mem_append, not_or, map_singleton,
      mem_singleton] at hid
    rw [hother id hid.2, hleft id hid.1]

end NetworkStat

end Ns2
