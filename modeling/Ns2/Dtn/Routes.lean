import Ns2.Lib.Keyed
import Ns2.Lib.Machine

/-! The route table of a DTN agent (`dtn/routes.cc`): `Routes::add` and `Routes::getNextHop`.
Pointers to links are places in the list of links, which only grows. -/

namespace Ns2

open List

namespace Routes

/-- The next hop of a link, with its `mtu_`. -/
structure LinkInfo where
  linkObj : List Char
  node : ℤ
  mtu : ℤ
deriving DecidableEq

/-- `route` is `none` for a default route, and `linfo` is a place in `links`. -/
structure Route where
  route : Option (List Char)
  custodian : ℤ
  metric : ℤ
  linfo : ℕ

/-- A node of the simulation: its address and the name of its object. -/
structure Node where
  address : ℤ
  name : List Char

/-- The arguments of `add`; `none` is a null pointer. -/
structure AddCall where
  node : ℤ
  route : Option (List Char)
  custodian : ℤ
  metric : ℤ
  mtu : ℤ
  linkObj : Option (List Char)

end Routes

structure Routes where
  list : List Routes.Route
  links : List Routes.LinkInfo

namespace Routes

/-- `char linkObj_[9]` -/
def linkObjSize : ℕ := 9

/-- The search runs on while the name of the link is the given one, and ends at the first link
with another name. -/
def findLink (linkObj : List Char) (links : List LinkInfo) : Option ℕ :=
  links.findIdx? fun cur => cur.linkObj ≠ linkObj

/-- The fields of the new route; `*` stands for a default route. -/
def newRoute (route : List Char) (c : AddCall) (cur : ℕ) : Route :=
  let metric := if c.metric < 0 then 0 else c.metric
  if route = ['*'] then ⟨none, c.custodian, 1000, cur⟩ else ⟨some route, c.custodian, metric, cur⟩

/-- `none` is a name that `strcpy` writes past the end of `linkObj_`. -/
def add (t : Routes) (c : AddCall) : Option (Routes × ℤ) :=
  match c.route, c.linkObj with
  | some route, some linkObj =>
    match findLink linkObj t.links with
    | some cur => some ({ t with list := newRoute route c cur :: t.list }, 0)
    | none =>
      if linkObj.length < linkObjSize then
        some (⟨newRoute route c t.links.length :: t.list, t.links ++ [⟨linkObj, c.node, c.mtu⟩]⟩, 0)
      else none
  | _, _ => some (t, -1)

def getNodeByAddress (nodes : List Node) (id : ℤ) : Option Node := findKey Node.address id nodes

/-- `TclObject::lookup` -/
def lookup (nodes : List Node) (name : List Char) : Option Node := findKey Node.name name nodes

/-- The first route whose next hop has the name of `dnode`; the outer `none` is the use of a null
pointer. -/
def findMatch (nodes : List Node) (links : List LinkInfo) (dnode : Node) :
    List Route → Option (Option LinkInfo)
  | [] => some none
  | temp :: list =>
    (links[temp.linfo]?).bind fun link =>
      (getNodeByAddress nodes link.node).bind fun lnode =>
        if dnode.name = lnode.name then some (some link) else findMatch nodes links dnode list

/-- The name of the destination ends at a colon. -/
def getNextHop (t : Routes) (nodes : List Node) (admdest : List Char) : Option (Option LinkInfo) :=
  if t.list.isEmpty then some none
  else
    match lookup nodes (admdest.takeWhile (· ≠ ':')) with
    | none => some none
    | some dnode => findMatch nodes t.links dnode t.list

def empty : Routes := ⟨[], []⟩

def machine : Machine Routes AddCall ℤ := ⟨add⟩

/-- The call makes a route. -/
def AddCall.Adds (c : AddCall) : Prop := c.route.isSome = true ∧ c.linkObj.isSome = true

instance (c : AddCall) : Decidable c.Adds := inferInstanceAs (Decidable (_ ∧ _))

/-- The calls of a sequence that make a route, the last one first as in the list of routes. -/
def made (cs : List AddCall) : List AddCall := (cs.filter fun c => c.Adds).reverse

/-- The route has a link with the object name, the node and the `mtu` of the call. -/
def Refers (links : List LinkInfo) (c : AddCall) (r : Route) : Prop :=
  ∃ link, links[r.linfo]? = some link ∧ c.linkObj = some link.linkObj ∧ link.node = c.node ∧
    link.mtu = c.mtu

/-- Addresses and names tell nodes apart, and the next hops of the calls are nodes. -/
structure Knows (nodes : List Node) (cs : List AddCall) : Prop where
  addresses : (nodes.map Node.address).Nodup
  names : (nodes.map Node.name).Nodup
  node : ∀ c ∈ made cs, c.node ∈ nodes.map Node.address

/-- After the calls each route made has its own link, and the next hop for the name of a node that
was added is a link to that node. -/
def Serves (cs : List AddCall) : Prop :=
  ∃ t as, machine.run empty cs = some (t, as) ∧
    Forall₂ (Refers t.links) (made cs) t.list ∧
    ∀ nodes, Knows nodes cs → ∀ c ∈ made cs, ∀ n ∈ nodes, n.address = c.node →
      ∀ admdest, admdest.takeWhile (· ≠ ':') = n.name →
        ∃ link, t.getNextHop nodes admdest = some (some link) ∧ link.node = c.node

variable {t t' : Routes} {c : AddCall} {cs : List AddCall} {a : ℤ} {as : List ℤ}
  {links : List LinkInfo} {name : List Char} {nodes : List Node}

@[simp] theorem newRoute_linfo (route : List Char) (c : AddCall) (cur : ℕ) :
    (newRoute route c cur).linfo = cur := by
  rw [newRoute]
  split_ifs <;> rfl

theorem findLink_eq_none : findLink name links = none ↔ ∀ link ∈ links, link.linkObj = name := by
  rw [findLink, findIdx?_eq_none_iff]
  simp

theorem made_concat (cs : List AddCall) (c : AddCall) :
    made (cs ++ [c]) = if c.Adds then c :: made cs else made cs := by
  rw [made, filter_append, reverse_append]
  by_cases h : c.Adds
  · rw [if_pos h, filter_cons_of_pos (by simpa using h)]
    rfl
  · rw [if_neg h, filter_cons_of_neg (by simpa using h)]
    rfl

/-- A call without a null pointer makes a route. Its link is the first one with another name, and
only without such a link a new one. -/
theorem add_cases (h : t.add c = some (t', a)) :
    (¬c.Adds ∧ t' = t) ∨ ∃ linkObj r, c.Adds ∧ c.linkObj = some linkObj ∧ t'.list = r :: t.list ∧
      ((findLink linkObj t.links = some r.linfo ∧ t'.links = t.links) ∨
        (findLink linkObj t.links = none ∧ linkObj.length < linkObjSize ∧
          r.linfo = t.links.length ∧ t'.links = t.links ++ [⟨linkObj, c.node, c.mtu⟩])) := by
  cases hroute : c.route with
  | none =>
    simp only [add, hroute, Option.some.injEq, Prod.mk.injEq] at h
    exact Or.inl ⟨fun hadds => absurd hadds.1 (by simp [hroute]), h.1.symm⟩
  | some route =>
    cases hlink : c.linkObj with
    | none =>
      simp only [add, hroute, hlink, Option.some.injEq, Prod.mk.injEq] at h
      exact Or.inl ⟨fun hadds => absurd hadds.2 (by simp [hlink]), h.1.symm⟩
    | some linkObj =>
      have hadds : c.Adds := ⟨by rw [hroute]; rfl, by rw [hlink]; rfl⟩
      refine Or.inr ⟨linkObj, ?_⟩
      cases hfind : findLink linkObj t.links with
      | some cur =>
        simp only [add, hroute, hlink, hfind, Option.some.injEq, Prod.mk.injEq] at h
        rw [← h.1]
        exact ⟨newRoute route c cur, hadds, rfl, rfl, Or.inl ⟨by rw [newRoute_linfo], rfl⟩⟩
      | none =>
        simp only [add, hroute, hlink, hfind, Option.ite_none_right_eq_some, Option.some.injEq,
          Prod.mk.injEq] at h
        obtain ⟨hfits, rfl, -⟩ := h
        exact ⟨newRoute route c t.links.length, hadds, rfl, rfl,
          Or.inr ⟨rfl, hfits, newRoute_linfo .., rfl⟩⟩

/-- All links have the name, and it fits. -/
def Uniform (name : List Char) (links : List LinkInfo) : Prop :=
  name.length < linkObjSize ∧ ∀ link ∈ links, link.linkObj = name

theorem uniform_add (h : ∃ name, Uniform name t.links) (hadd : t.add c = some (t', a)) :
    ∃ name, Uniform name t'.links := by
  rcases add_cases hadd with
    ⟨-, rfl⟩ | ⟨linkObj, r, -, -, -, ⟨-, hlinks⟩ | ⟨hnone, hfits, -, hlinks⟩⟩
  · exact h
  · rw [hlinks]
    exact h
  · rw [hlinks]
    refine ⟨linkObj, hfits, fun link hmem => ?_⟩
    rcases mem_append.1 hmem with hmem | hmem
    · exact findLink_eq_none.1 hnone link hmem
    · rw [mem_singleton.1 hmem]

theorem Refers.mono {links' : List LinkInfo} {r : Route} (hpre : links <+: links')
    (h : Refers links c r) : Refers links' c r := by
  obtain ⟨link, hlink, hrefers⟩ := h
  obtain ⟨more, rfl⟩ := hpre
  obtain ⟨hlt, -⟩ := List.getElem?_eq_some_iff.1 hlink
  exact ⟨link, by rw [List.getElem?_append_left hlt, hlink], hrefers⟩

/-- The table after some calls that all gave the name. -/
structure Filled (name : List Char) (cs : List AddCall) (t : Routes) : Prop where
  uniform : Uniform name t.links
  routes : Forall₂ (Refers t.links) (made cs) t.list

theorem Filled.exists_add (h : Filled name cs t) (hname : c.Adds → c.linkObj = some name) :
    ∃ t' a, t.add c = some (t', a) ∧ Filled name (cs ++ [c]) t' := by
  have hsome : ∃ t' a, t.add c = some (t', a) := by
    have hnone : findLink name t.links = none := findLink_eq_none.2 h.uniform.2
    cases hroute : c.route with
    | none => exact ⟨t, -1, by simp only [add, hroute]⟩
    | some route =>
      cases hlink : c.linkObj with
      | none => exact ⟨t, -1, by simp only [add, hroute, hlink]⟩
      | some linkObj =>
        have hadds : c.Adds := ⟨by rw [hroute]; rfl, by rw [hlink]; rfl⟩
        obtain rfl : linkObj = name := Option.some.inj (hlink.symm.trans (hname hadds))
        exact ⟨_, 0, by simp only [add, hroute, hlink, hnone, if_pos h.uniform.1]; rfl⟩
  obtain ⟨t', a, hadd⟩ := hsome
  refine ⟨t', a, hadd, ?_⟩
  rcases add_cases hadd with ⟨hnot, rfl⟩ | ⟨linkObj, r, hadds, hlink, hlist, hfound⟩
  · exact ⟨h.uniform, by rw [made_concat, if_neg hnot]; exact h.routes⟩
  · obtain rfl : linkObj = name := Option.some.inj (hlink.symm.trans (hname hadds))
    rcases hfound with ⟨hfind, -⟩ | ⟨-, -, hlinfo, hlinks⟩
    · rw [findLink_eq_none.2 h.uniform.2] at hfind
      cases hfind
    · have hpre : t.links <+: t'.links := hlinks ▸ prefix_append ..
      have hat : t'.links[r.linfo]? = some ⟨linkObj, c.node, c.mtu⟩ := by
        rw [hlinks, hlinfo, getElem?_concat_length]
      refine ⟨⟨h.uniform.1, fun link hmem => ?_⟩, ?_⟩
      · rw [hlinks] at hmem
        rcases mem_append.1 hmem with hmem | hmem
        · exact h.uniform.2 link hmem
        · rw [mem_singleton.1 hmem]
      · rw [made_concat, if_pos hadds, hlist]
        exact Forall₂.cons ⟨_, hat, hlink, rfl, rfl⟩
          (h.routes.imp fun c r hrefers => hrefers.mono hpre)

theorem Filled.exists_run (h : Filled name cs t) {cs' : List AddCall}
    (hname : ∀ c ∈ cs', c.Adds → c.linkObj = some name) :
    ∃ t' as, machine.run t cs' = some (t', as) ∧ Filled name (cs ++ cs') t' := by
  induction cs' generalizing cs t with
  | nil => exact ⟨t, [], rfl, by rwa [append_nil]⟩
  | cons c cs' ih =>
    obtain ⟨hc, hname⟩ := forall_mem_cons.1 hname
    obtain ⟨t₁, a, hadd, h₁⟩ := h.exists_add hc
    obtain ⟨t', as, hrun, h'⟩ := ih h₁ hname
    refine ⟨t', a :: as, ?_, ?_⟩
    · rw [machine.run_cons cs' hadd, hrun]
      rfl
    · rwa [append_assoc] at h'

theorem exists_findMatch {list : List Route} (h : Forall₂ (Refers links) cs list)
    (haddr : (nodes.map Node.address).Nodup) (hnames : (nodes.map Node.name).Nodup)
    (hnode : ∀ c ∈ cs, c.node ∈ nodes.map Node.address) {n : Node} (hn : n ∈ nodes)
    (hadded : ∃ c ∈ cs, n.address = c.node) :
    ∃ link, findMatch nodes links n list = some (some link) ∧ link.node = n.address := by
  induction h with
  | nil =>
    obtain ⟨c, hc, -⟩ := hadded
    cases hc
  | @cons c r cs list hrefers _ ih =>
    obtain ⟨link, hlink, -, hto, -⟩ := hrefers
    obtain ⟨hc, hnode⟩ := forall_mem_cons.1 hnode
    obtain ⟨lnode, hlnode, haddress⟩ := mem_map.1 hc
    have hfind : getNodeByAddress nodes link.node = some lnode := by
      rw [hto, ← haddress]
      exact findKey_of_mem haddr hlnode
    rw [findMatch, hlink, Option.bind_some, hfind, Option.bind_some]
    by_cases hname : n.name = lnode.name
    · rw [if_pos hname]
      obtain rfl : n = lnode := inj_on_of_nodup_map hnames hn hlnode hname
      exact ⟨link, rfl, hto.trans haddress.symm⟩
    · rw [if_neg hname]
      obtain ⟨c', hc', heq⟩ := hadded
      rcases mem_cons.1 hc' with rfl | hc'
      · have hsame : n = lnode :=
          inj_on_of_nodup_map haddr hn hlnode (heq.trans haddress.symm)
        exact absurd (congrArg Node.name hsame) hname
      · exact ih hnode ⟨c', hc', heq⟩

/-- The calls of a sequence are all served right exactly when the calls that make a route give one
link name, of at most eight characters. -/
theorem serves_iff (cs : List AddCall) :
    Serves cs ↔ ∃ name : List Char, name.length < linkObjSize ∧
      ∀ c ∈ cs, c.Adds → c.linkObj = some name := by
  constructor
  · rintro ⟨t, as, hrun, hroutes, -⟩
    have hempty : ∃ name, Uniform name empty.links :=
      ⟨[], by decide, fun _ hlink => absurd hlink not_mem_nil⟩
    obtain ⟨name, hfits, hsame⟩ := (machine.runsWith_true empty cs).keeps
      (I := fun t => ∃ name, Uniform name t.links) (fun _ _ _ _ h _ hadd => uniform_add h hadd) hrun hempty
    refine ⟨name, hfits, fun c hc hadds => ?_⟩
    have hmade : c ∈ made cs := mem_reverse.2 (mem_filter.2 ⟨hc, by simpa using hadds⟩)
    obtain ⟨i, hi, heq⟩ := mem_iff_getElem.1 hmade
    have hrefers := hroutes.get hi (hroutes.length_eq ▸ hi)
    obtain ⟨link, hlink, hname, -⟩ := hrefers
    rw [get_eq_getElem, heq] at hname
    rw [hname, hsame link (mem_of_getElem? hlink)]
  · rintro ⟨name, hfits, hname⟩
    have hempty : Filled name [] empty :=
      ⟨⟨hfits, fun _ hlink => absurd hlink not_mem_nil⟩, Forall₂.nil⟩
    obtain ⟨t, as, hrun, h⟩ := hempty.exists_run hname
    rw [nil_append] at h
    refine ⟨t, as, hrun, h.routes, fun nodes hknows c hc n hn haddress admdest hdest => ?_⟩
    obtain ⟨link, hmatch, hto⟩ := exists_findMatch h.routes hknows.addresses hknows.names
      hknows.node hn ⟨c, hc, haddress⟩
    have hlookup : lookup nodes n.name = some n := findKey_of_mem hknows.names hn
    have hlist : t.list.isEmpty = false := by
      cases hlist : t.list with
      | nil =>
        have hnil := h.routes
        rw [hlist, forall₂_nil_right_iff] at hnil
        rw [hnil] at hc
        cases hc
      | cons => rfl
    refine ⟨link, ?_, hto.trans haddress⟩
    simp only [getNextHop, hlist, hdest, hlookup, Bool.false_eq_true, if_false, hmatch]

/-- Two neighbours, each behind a link of its own. -/
def twoLinks : List AddCall :=
  [⟨1, some ['R'], 1, 1, 1000, some ['a']⟩, ⟨2, some ['R'], 1, 1, 500, some ['b']⟩]

/-- The route to the second neighbour gets the link to the first one. -/
theorem not_serves_twoLinks : ¬Serves twoLinks := by
  rintro ⟨t, as, hrun, hroutes, -⟩
  have hlast : machine.run empty twoLinks = some
      (⟨[⟨some ['R'], 1, 1, 0⟩, ⟨some ['R'], 1, 1, 0⟩], [⟨['a'], 1, 1000⟩]⟩, [0, 0]) := rfl
  obtain ⟨rfl, -⟩ := Prod.mk.inj (Option.some.inj (hlast.symm.trans hrun))
  obtain ⟨link, hlink, hname, -⟩ := (forall₂_cons.1 hroutes).1
  obtain rfl : (⟨['a'], 1, 1000⟩ : LinkInfo) = link := Option.some.inj hlink
  exact absurd hname (by decide)

end Routes

end Ns2
