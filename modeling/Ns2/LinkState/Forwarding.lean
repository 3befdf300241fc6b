import Ns2.LinkState.Convergence
import Ns2.LinkState.EqualCostRoutes

/-! What the nodes do with packets when the flooding is at rest: each sends them on by the routes that
it computes from its own database. -/

namespace Ns2.LinkState

open List Option

theorem equalCostPaths_of_returned {db : LsTopoMap} {me : ℤ} {fuel : ℕ} {paths : LsPaths}
    (hcosts : CostsInRange db) (h : computeRoutes me db fuel = some (.returned paths)) :
    EqualCostPaths db me paths := by
  cases hdb : db.find me with
  | none =>
    rw [computeRoutes, hdb] at h
    cases h
    exact (Searching.alone hdb).equalCostPaths hcosts rfl
  | some lsl =>
    rw [computeRoutes, hdb] at h
    simp only [expand, if_true] at h
    obtain ⟨tent, hs, ht⟩ := (Searching.start hcosts hdb).returned hcosts h
    exact hs.equalCostPaths hcosts ht

namespace LsNetwork

variable {net : LsNetwork} {ids : List ℤ} {a d u v x : ℤ}

/-- The link from `u` to `v` is up and costs `x`. -/
def Link (net : LsNetwork) (u v x : ℤ) : Prop :=
  ∃ link ∈ (net.node u).linkStateList, link.status = .up ∧ link.neighborId = v ∧ link.cost = x

/-- The database of a node as `_computeRoutes` reads it. -/
def topoMap (net : LsNetwork) (a : ℤ) : LsTopoMap where
  entries := (net.node a).linkStateDatabase.entries.map fun e => (e.1, e.2.map LsRecord.toLsLinkState)
  sorted := by simpa [pairwise_map] using (net.node a).linkStateDatabase.sorted

theorem find_topoMap (net : LsNetwork) (a o : ℤ) : (net.topoMap a).find o =
    ((net.node a).linkStateDatabase.find o).map (List.map LsRecord.toLsLinkState) := by
  unfold OrdMap.find topoMap
  dsimp only
  induction (net.node a).linkStateDatabase.entries with
  | nil => rfl
  | cons e l ih =>
    rw [map_cons, lookupEntry, lookupEntry, ih]
    split_ifs <;> rfl

/-- Every node reads the same links from its database. -/
theorem InvOn.hasLink_eq (hi : net.InvOn ids) (hconv : net.Converged ids) (ha : a ∈ ids) :
    HasLink (net.topoMap a) = net.Link := by
  have hread : ∀ u, (net.record a u).map LsRecord.toLsLinkState = (net.node u).linkStateList := by
    intro u
    by_cases hu : u ∈ ids
    · exact hconv a ha u hu
    · have hnil : (net.node u).linkStateList = [] := by
        refine eq_nil_iff_forall_not_mem.2 fun link hlink => ?_
        have hpeer := (hi.inv.peers u _).2 (mem_map_of_mem hlink)
        rw [hi.alone u hu] at hpeer
        cases hpeer
      obtain ⟨own, hown, hlinks⟩ := hi.inv.own u
      rw [hnil, map_eq_nil_iff] at hlinks
      rw [hnil, record]
      cases hfind : (net.node a).linkStateDatabase.find u with
      | none => rfl
      | some l =>
        have hnbrs := (hi.inv.records a u l (fun heq => hu (heq ▸ ha)) hfind).nbrs
        rw [record, hown, hlinks] at hnbrs
        rw [getD_some, map_eq_nil_iff.1 hnbrs]
        rfl
  funext u v x
  rw [HasLink, Link, ← hread, record, find_topoMap]
  cases (net.node a).linkStateDatabase.find u with
  | none => simp
  | some l => simp

theorem InvOn.mem_of_link (hi : net.InvOn ids) (hx : net.Link u v x) : v ∈ ids := by
  obtain ⟨link, hlink, -, rfl, -⟩ := hx
  have hpeer := hi.inv.symm u _ ((hi.inv.peers u _).2 (mem_map_of_mem hlink))
  by_contra hv
  rw [hi.alone _ hv] at hpeer
  cases hpeer

theorem invOn_of_benign (T : Topology) {events : List LsEvent} {as : List Unit}
    (hok : lsRouting.RunsWith Benign T.network events)
    (hrun : lsRouting.run T.network events = some (net, as)) : net.InvOn T.ids := by
  refine hok.keeps (fun net e net' _ hI hben hs => ?_) hrun ⟨T.inv_network, fun a ha => ?_⟩
  · obtain ⟨n, hn, heq⟩ := Option.map_eq_some_iff.1 hs
    obtain ⟨rfl, -⟩ := Prod.mk.inj heq
    exact hI.handle hben hn
  · have hn : T.network.node a = .init a [] [] := if_neg ha
    rw [hn]
    rfl

/-- No list of links is newer than those of its origin, and what a node knows its peers know too or are
about to be told. -/
theorem knowledge_of_benign (T : Topology) {events : List LsEvent} {as : List Unit}
    (hok : lsRouting.RunsWith Benign T.network events)
    (hrun : lsRouting.run T.network events = some (net, as)) :
    (∀ a o l, o ≠ a → (net.node a).linkStateDatabase.find o = some l → KnownBy (net.record o o) l) ∧
      ∀ a b o, net.Up a b → o ≠ b →
        headSeq (net.record a o) ≤ headSeq (net.record b o) ∨ net.Pending a b o :=
  have hi := invOn_of_benign T hok hrun
  ⟨hi.inv.records, hi.inv.told⟩

/-- The routes of a node lead over links that are up, wherever such links lead, and each next hop is
nearer to the destination by the cost of the link. -/
theorem routes_of_benign (T : Topology) {events : List LsEvent} {as : List Unit}
    (hok : lsRouting.RunsWith Benign T.network events)
    (hrun : lsRouting.run T.network events = some (net, as)) (hq : net.Quiescent T.ids)
    (hc : net.Connected T.ids) (ha : a ∈ T.ids) (hcosts : CostsInRange (net.topoMap a)) {fuel : ℕ}
    {paths : LsPaths} (hret : computeRoutes a (net.topoMap a) fuel = some (.returned paths))
    (hne : d ≠ a) :
    (∀ c ≤ lsMaxCost, IsDist net.Link a d c → ∃ ep, paths.find d = some ep) ∧
      ∀ ep, paths.find d = some ep → IsDist net.Link a d ep.cost ∧ ep.nextHopList ≠ [] ∧
        ∀ h ∈ ep.nextHopList, h ∈ T.ids ∧ ∃ x > 0, net.Link a h x ∧ IsDist net.Link h d (ep.cost - x) := by
  have hi := invOn_of_benign T hok hrun
  have hlink := hi.hasLink_eq (hi.converged hq hc) ha
  have hpaths := equalCostPaths_of_returned hcosts hret
  have hcomplete := hpaths.complete d
  have hsound := hpaths.sound d
  rw [hlink] at hcomplete hsound
  refine ⟨fun c hle hd => hcomplete c hne hd hle, fun ep hfind => ?_⟩
  obtain ⟨hd, -, -, hhops⟩ := hsound ep hne hfind
  refine ⟨hd, fun hnil => ?_, fun h hmem => ?_⟩
  · obtain ⟨heq, -⟩ | ⟨h, hh⟩ := hd.1.firstHop
    · exact hne heq
    · have hmem := (hhops h).2 hh
      rw [hnil] at hmem
      cases hmem
  · obtain ⟨x, y, hx, hy, heq⟩ := (hhops h).1 hmem
    have hpos : 0 < x := hcosts.pos a h x (hlink ▸ hx)
    refine ⟨hi.mem_of_link hx, x, hpos, hx, ?_, fun y' hy' => ?_⟩
    · rwa [← heq, add_sub_cancel_left]
    · have hle := hd.2 _ ((Walk.single hx).trans hy')
      omega

theorem knowledge_of_benign_recovery : ∃ net as,
    lsRouting.run lineTopology.network recovery = some (net, as) ∧
      (∀ a o l, o ≠ a → (net.node a).linkStateDatabase.find o = some l →
        KnownBy (net.record o o) l) ∧
      ∀ a b o, net.Up a b → o ≠ b →
        headSeq (net.record a o) ≤ headSeq (net.record b o) ∨ net.Pending a b o := by
  have hok : lsRouting.RunsWith Benign lineTopology.network recovery := by decide +kernel
  have hsome : (lsRouting.run lineTopology.network recovery).isSome := by decide +kernel
  obtain ⟨⟨net, as⟩, hrun⟩ := isSome_iff_exists.1 hsome
  exact ⟨net, as, hrun, knowledge_of_benign lineTopology hok hrun⟩

theorem routes_of_benign_inOrderEvents : ∃ net as paths,
    lsRouting.run lineTopology.network inOrderEvents = some (net, as) ∧
      computeRoutes 0 (net.topoMap 0) 3 = some (.returned paths) ∧
        ∀ ep, paths.find 2 = some ep → IsDist net.Link 0 2 ep.cost := by
  have hok : lsRouting.RunsWith Benign lineTopology.network inOrderEvents := by decide +kernel
  have hstate : (lsRouting.run lineTopology.network inOrderEvents).any fun r =>
      r.1.Quiescent lineTopology.ids ∧ (r.1.node 0).isUp 1 ∧ (r.1.node 1).isUp 0 ∧ (r.1.node 1).isUp 2 ∧
        (r.1.node 2).isUp 1 ∧ (∀ e ∈ (r.1.topoMap 0).entries, ∀ link ∈ e.2, link.status = .up →
          1 ≤ link.cost ∧ link.cost ≤ lsMaxCost) ∧
        (computeRoutes 0 (r.1.topoMap 0) 3).any fun out => out matches .returned _ := by
    decide +kernel
  obtain ⟨⟨net, as⟩, hrun, hstate⟩ := (Option.any_eq_true _ _).1 hstate
  obtain ⟨hq, h01, h10, h12, h21, hcosts, hout⟩ := of_decide_eq_true hstate
  obtain ⟨out, hret, hout⟩ := (Option.any_eq_true _ _).1 hout
  cases out with
  | aborted => cases hout
  | returned paths =>
    have hroutes := routes_of_benign lineTopology hok hrun hq (connected_lineTopology h01 h10 h12 h21)
      (by decide) (costsInRange_of_forall hcosts) hret (by decide : (2 : ℤ) ≠ 0)
    exact ⟨net, as, paths, hrun, hret, fun ep hep => (hroutes.2 ep hep).1⟩

end LsNetwork

end Ns2.LinkState
