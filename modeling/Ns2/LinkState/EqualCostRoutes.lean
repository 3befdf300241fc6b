import Mathlib.Data.Finset.Prod
import Mathlib.Tactic.Linarith
import Ns2.Lib.EqualCost
import Ns2.LinkState.ComputeRoutes

/-! The paths that `_computeRoutes` returns are those of equal least cost, unless a path costs just
`LS_MAX_COST + 1`. -/

namespace Ns2.LinkState

open List

/-- The database has an UP link of cost `x` from `u` to `v`. -/
def HasLink (db : LsTopoMap) (u v x : ℤ) : Prop :=
  ∃ lsl, db.find u = some lsl ∧ ∃ link ∈ lsl, link.status = .up ∧ link.neighborId = v ∧ link.cost = x

/-- What the paths from `me` have to be. -/
structure EqualCostPaths (db : LsTopoMap) (me : ℤ) (paths : LsPaths) : Prop where
  self : paths.find me = some ⟨0, [me]⟩
  sound : ∀ v ep, v ≠ me → paths.find v = some ep →
    IsDist (HasLink db) me v ep.cost ∧ ep.cost ≤ lsMaxCost ∧ ep.nextHopList.Nodup ∧
      ∀ h, h ∈ ep.nextHopList ↔ FirstHop (HasLink db) me v ep.cost h
  complete : ∀ v c, v ≠ me → IsDist (HasLink db) me v c → c ≤ lsMaxCost → ∃ ep, paths.find v = some ep

/-- No node is at the cost `LS_MAX_COST + 1`, and none in reach has the number `LS_INVALID_NODE_ID`. -/
def WithinReach (db : LsTopoMap) (me : ℤ) : Prop :=
  (∀ v, ¬IsDist (HasLink db) me v (lsMaxCost + 1)) ∧
    ∀ c, me ≠ lsInvalidNodeId → Walk (HasLink db) me lsInvalidNodeId c → lsMaxCost < c

section Lists

variable {l x : LsNodeIdList} {h : ℤ}

theorem LsNodeIdList.mem_appendUnique : h ∈ l.appendUnique x ↔ h ∈ l ∨ h ∈ x := by
  induction x generalizing l with
  | nil => simp [appendUnique]
  | cons a x ih =>
    rw [appendUnique, foldl_cons]
    refine (ih (l := if a ∈ l then l else l ++ [a])).trans ?_
    split_ifs with ha
    · rw [mem_cons]
      constructor
      · exact fun hh => hh.imp_right Or.inr
      · rintro (hh | rfl | hh)
        · exact Or.inl hh
        · exact Or.inl ha
        · exact Or.inr hh
    · rw [mem_append, mem_singleton, mem_cons, or_assoc]

theorem LsNodeIdList.nodup_appendUnique (hl : l.Nodup) : (l.appendUnique x).Nodup := by
  induction x generalizing l with
  | nil => exact hl
  | cons a x ih =>
    rw [appendUnique, foldl_cons]
    refine ih (l := if a ∈ l then l else l ++ [a]) ?_
    split_ifs with ha
    · exact hl
    · refine nodup_append.2 ⟨hl, nodup_singleton a, fun b hb c hc => ?_⟩
      obtain rfl := mem_singleton.1 hc
      rintro rfl
      exact ha hb

end Lists

namespace LsPaths

variable {m : LsPaths} {v w c : ℤ} {l : LsNodeIdList}
variable {ep e : LsEqualPaths}

theorem insertNextHopList_frame (hw : w ≠ v) : (m.insertNextHopList v c l).find w = m.find w := by
  unfold insertNextHopList
  split
  · exact OrdMap.find_set_of_ne hw _ _
  · split_ifs
    · rfl
    · exact OrdMap.find_set_of_ne hw _ _
    · exact OrdMap.find_set_of_ne hw _ _

theorem merges_insertNextHopList :
    Merges LsEqualPaths.cost LsEqualPaths.nextHopList c l (m.find v)
      ((m.insertNextHopList v c l).find v) := by
  unfold insertNextHopList
  split
  case h_1 hfind =>
    refine .replaced (fun e he => ?_) (OrdMap.find_set_self _ _ _) rfl rfl
    rw [hfind] at he
    cases he
  case h_2 ep hfind =>
    split_ifs with hlt hgt
    · exact .kept hfind hlt rfl
    · refine .replaced (fun e he => ?_) (OrdMap.find_set_self _ _ _) rfl rfl
      exact Option.some.inj (hfind.symm.trans he) ▸ hgt
    · have heq : ep.cost = c := le_antisymm (not_lt.1 hgt) (not_lt.1 hlt)
      exact .joined hfind heq (OrdMap.find_set_self _ _ _) heq LsNodeIdList.nodup_appendUnique
        fun _ => LsNodeIdList.mem_appendUnique

theorem foldl_findMinEqualPaths {l : List (ℤ × LsEqualPaths)} (hl : ∀ e ∈ l, e.2.nextHopList ≠ [])
    (best : ℤ × Option (ℤ × LsEqualPaths)) :
    let r := l.foldl (fun (best : ℤ × Option (ℤ × LsEqualPaths)) e =>
      if best.1 > e.2.cost ∧ ¬e.2.nextHopList.isEmpty then (e.2.cost, some e) else best) best
    (r = best ∨ ∃ e ∈ l, r = (e.2.cost, some e) ∧ e.2.cost < best.1) ∧ r.1 ≤ best.1 ∧
      ∀ e ∈ l, r.1 ≤ e.2.cost := by
  induction l generalizing best with
  | nil => exact ⟨Or.inl rfl, le_rfl, fun e he => absurd he not_mem_nil⟩
  | cons a l ih =>
    have ha : ¬a.2.nextHopList.isEmpty := by simpa using hl a mem_cons_self
    have ih := ih fun e he => hl e (mem_cons_of_mem a he)
    intro r
    by_cases hlt : best.1 > a.2.cost
    · have hr : r = l.foldl (fun (best : ℤ × Option (ℤ × LsEqualPaths)) e =>
          if best.1 > e.2.cost ∧ ¬e.2.nextHopList.isEmpty then (e.2.cost, some e) else best)
          (a.2.cost, some a) := by
        simp only [r, foldl_cons, if_pos (And.intro hlt ha)]
      obtain ⟨hcase, hle, hall⟩ := ih (a.2.cost, some a)
      rw [← hr] at hcase hle hall
      refine ⟨Or.inr ?_, hle.trans hlt.le, fun e he => ?_⟩
      · rcases hcase with heq | ⟨e, he, heq, hlt'⟩
        · exact ⟨a, mem_cons_self, heq, hlt⟩
        · exact ⟨e, mem_cons_of_mem a he, heq, hlt'.trans hlt⟩
      · rcases mem_cons.1 he with rfl | he
        · exact hle
        · exact hall e he
    · have hr : r = l.foldl (fun (best : ℤ × Option (ℤ × LsEqualPaths)) e =>
          if best.1 > e.2.cost ∧ ¬e.2.nextHopList.isEmpty then (e.2.cost, some e) else best) best := by
        simp only [r, foldl_cons, if_neg (fun h : best.1 > a.2.cost ∧ _ => hlt h.1)]
      obtain ⟨hcase, hle, hall⟩ := ih best
      rw [← hr] at hcase hle hall
      refine ⟨hcase.imp_right fun ⟨e, he, h⟩ => ⟨e, mem_cons_of_mem a he, h⟩, hle,
        fun e he => ?_⟩
      rcases mem_cons.1 he with rfl | he
      · exact hle.trans (not_lt.1 hlt)
      · exact hall e he

theorem findMinEqualPaths_eq_none (hm : ∀ v ep, m.find v = some ep → ep.nextHopList ≠ [])
    (h : m.findMinEqualPaths = none) (hv : m.find v = some ep) : lsMaxCost < ep.cost := by
  obtain ⟨hcase, -, hall⟩ := foldl_findMinEqualPaths (l := m.entries)
    (fun e he => hm e.1 e.2 (OrdMap.mem_entries.1 he)) (lsMaxCost + 1, none)
  rcases hcase with heq | ⟨e, -, heq, -⟩
  · have := hall _ (OrdMap.mem_entries.2 hv)
    rw [heq] at this
    exact this
  · rw [findMinEqualPaths, heq] at h
    cases h

theorem findMinEqualPaths_eq_some (hm : ∀ v ep, m.find v = some ep → ep.nextHopList ≠ [])
    (h : m.findMinEqualPaths = some (v, ep)) :
    m.find v = some ep ∧ ep.cost ≤ lsMaxCost ∧ ∀ w f, m.find w = some f → ep.cost ≤ f.cost := by
  obtain ⟨hcase, -, hall⟩ := foldl_findMinEqualPaths (l := m.entries)
    (fun e he => hm e.1 e.2 (OrdMap.mem_entries.1 he)) (lsMaxCost + 1, none)
  rcases hcase with heq | ⟨e, he, heq, hlt⟩
  · rw [findMinEqualPaths, heq] at h
    cases h
  · rw [findMinEqualPaths, heq] at h
    obtain rfl := Option.some.inj h
    refine ⟨OrdMap.mem_entries.1 he, Int.lt_add_one_iff.1 hlt, fun w f hf => ?_⟩
    have := hall _ (OrdMap.mem_entries.2 hf)
    rwa [heq] at this

theorem lookupCost_of_some (h : m.find v = some ep) : m.lookupCost v = ep.cost := by
  rw [lookupCost, h]

theorem lookupCost_of_none (h : m.find v = none) : m.lookupCost v = lsMaxCost + 1 := by
  rw [lookupCost, h]

theorem insertPath_frame {path : LsPath} (hw : w ≠ path.destination) :
    (m.insertPath path).find w = m.find w := by
  unfold insertPath
  split
  · unfold insertPathNoChecking
    split
    · exact OrdMap.find_set_of_ne hw _ _
    · rfl
  · split_ifs
    · rfl
    · exact OrdMap.find_set_of_ne hw _ _
    · rfl
    · exact OrdMap.find_set_of_ne hw _ _

theorem find_insertPath (path : LsPath)
    (h : ∀ ep, m.find path.destination = some ep →
      ep.cost = path.cost ∧ path.nextHop ∉ ep.nextHopList) :
    (m.insertPath path).find path.destination =
      some ⟨path.cost, (m.find path.destination).elim [] LsEqualPaths.nextHopList ++
        [path.nextHop]⟩ := by
  unfold insertPath
  split
  case h_1 hfind =>
    rw [insertPathNoChecking, hfind]
    exact OrdMap.find_set_self _ _ _
  case h_2 ep hfind =>
    obtain ⟨hcost, hnot⟩ := h ep hfind
    rw [if_neg hcost.not_lt, if_neg hcost.not_gt, if_neg hnot, OrdMap.find_set_self, hfind, ← hcost]
    rfl

theorem popShortestPath_eq {h : ℤ} (hfind : m.findMinEqualPaths = some (v, e))
    (he : e.nextHopList = h :: l) : m.popShortestPath =
      (⟨v, e.cost, h⟩, if l.isEmpty then m.erase v else m.set v { e with nextHopList := l }) := by
  rw [popShortestPath, hfind]
  simp only [he]

theorem pops_popShortestPath {paths : LsPaths} {h : ℤ} (hfind : m.findMinEqualPaths = some (v, e))
    (he : e.nextHopList = h :: l) (hv : m.find v = some e)
    (hpaths : ∀ ep, paths.find v = some ep → ep.cost = e.cost ∧ h ∉ ep.nextHopList) :
    Pops LsEqualPaths.cost LsEqualPaths.nextHopList (paths.find ·) (m.find ·) v e h
      ((paths.insertPath ⟨v, e.cost, h⟩).find ·) (m.popShortestPath.2.find ·) := by
  have hpop := popShortestPath_eq hfind he
  have hself : m.popShortestPath.2.find v = if l.isEmpty then none else some ⟨e.cost, l⟩ := by
    rw [hpop]
    split_ifs
    · rw [OrdMap.find_erase, if_pos rfl]
    · exact OrdMap.find_set_self _ _ _
  refine ⟨hv, ⟨_, find_insertPath ⟨v, e.cost, h⟩ hpaths, rfl, rfl⟩,
    ⟨l, he, fun f hf => ?_, fun hnone => ?_⟩, fun u hu => ⟨insertPath_frame hu, ?_⟩⟩
  · rw [hself] at hf
    split_ifs at hf with hl
    obtain rfl := Option.some.inj hf
    exact ⟨rfl, rfl, by simpa using hl⟩
  · rw [hself] at hnone
    split_ifs at hnone with hl
    exact isEmpty_iff.1 hl
  · rw [hpop]
    split_ifs
    · rw [OrdMap.find_erase, if_neg hu]
    · exact OrdMap.find_set_of_ne hu _ _

end LsPaths

/-- The costs of the UP links are in the range that the paths allow for. -/
def CostsInRange (db : LsTopoMap) : Prop := ∀ u v x, HasLink db u v x → 1 ≤ x ∧ x ≤ lsMaxCost

/-- The search from `me` that the two maps are in. -/
abbrev Search (db : LsTopoMap) (me : ℤ) (paths tent : LsPaths) (bar : ℤ) : Prop :=
  HopSearch (HasLink db) (lsMaxCost + 1) me LsEqualPaths.cost LsEqualPaths.nextHopList
    (paths.find ·) (tent.find ·) bar

/-- The path to `v` over `h` at the cost `c` is in the two maps, or there is a cheaper one. -/
abbrev Reached (paths tent : LsPaths) (v c h : ℤ) : Prop :=
  Covered LsEqualPaths.cost LsEqualPaths.nextHopList (paths.find ·) (tent.find ·) v c h

section Expand

variable {db : LsTopoMap} {me u bar : ℤ} {paths tent : LsPaths} {nhl : LsNodeIdList}
  {lsl : List LsLinkState}

/-- What is passed on over the links of `u`: paths of the cost of `u` and that of the link. -/
def Onward (db : LsTopoMap) (me u : ℤ) (nhl : LsNodeIdList) (c : ℤ) : Prop :=
  ∀ v x, HasLink db u v x →
    (if u = me then [v] else nhl) ≠ [] ∧ (if u = me then [v] else nhl).Nodup ∧
      ∀ h ∈ if u = me then [v] else nhl, FirstHop (HasLink db) me v (x + c) h

section

variable (hcosts : CostsInRange db) (hs : Search db me paths tent bar) (hlsl : db.find u = some lsl)
  (hbar : bar ≤ paths.lookupCost u)
include hcosts hs hlsl hbar

theorem followLink_keeps
    (hon : Onward db me u nhl (paths.lookupCost u)) {link : LsLinkState} (hlink : link ∈ lsl) :
    Search db me paths (followLink me u nhl paths tent link) bar ∧
      (∀ v c h, Reached paths tent v c h → Reached paths (followLink me u nhl paths tent link) v c h) ∧
      (link.status = .up → link.cost + paths.lookupCost u ≤ lsMaxCost + 1 →
        ∀ h ∈ if u = me then [link.neighborId] else nhl,
          Reached paths (followLink me u nhl paths tent link) link.neighborId
            (link.cost + paths.lookupCost u) h) := by
  rw [followLink]
  by_cases hup : link.status = .up
  swap
  · rw [if_pos hup]
    exact ⟨hs, fun _ _ _ h => h, fun h => absurd h hup⟩
  have hhas : HasLink db u link.neighborId link.cost := ⟨lsl, hlsl, link, hlink, hup, rfl, rfl⟩
  obtain ⟨hpos, -⟩ := hcosts _ _ _ hhas
  rw [if_neg (not_not.2 hup)]
  simp only
  by_cases hlt : paths.lookupCost link.neighborId < link.cost + paths.lookupCost u
  · rw [if_pos hlt]
    refine ⟨hs, fun _ _ _ h => h, fun _ hcap h hh => ?_⟩
    cases hfind : paths.find link.neighborId with
    | none =>
      rw [LsPaths.lookupCost_of_none hfind] at hlt
      omega
    | some e =>
      rw [LsPaths.lookupCost_of_some hfind] at hlt
      exact Or.inl ⟨e, hfind, Or.inl hlt⟩
  · rw [if_neg hlt]
    have hnone : paths.find link.neighborId = none := by
      cases hfind : paths.find link.neighborId with
      | none => rfl
      | some e =>
        -- a settled node is not farther than `u`
        have := (hs.below _ _ hfind).2
        rw [LsPaths.lookupCost_of_some hfind] at hlt
        omega
    rw [LsPaths.lookupCost_of_none hnone] at hlt
    obtain ⟨hne, hnd, hsound⟩ := hon _ _ hhas
    have hm := LsPaths.merges_insertNextHopList (m := tent) (v := link.neighborId)
      (c := link.cost + paths.lookupCost u) (l := if u = me then [link.neighborId] else nhl)
    refine ⟨hs.merge hnone hne hnd hsound (by omega) (by omega) hm
      fun v hv => LsPaths.insertNextHopList_frame hv, fun v c h hc => ?_, fun _ _ h hh => ?_⟩
    · by_cases hv : v = link.neighborId
      · subst hv
        exact hc.imp_right fun ⟨e, he, ha⟩ => hm.admits he ha
      · refine hc.imp_right fun ⟨e, he, ha⟩ => ⟨e, ?_, ha⟩
        exact (LsPaths.insertNextHopList_frame hv).trans he
    · exact Or.inr (hm.admits_new hh)

theorem foldl_followLink (hon : Onward db me u nhl (paths.lookupCost u)) (links : List LsLinkState)
    (hlinks : ∀ link ∈ links, link ∈ lsl) :
    Search db me paths (links.foldl (followLink me u nhl paths) tent) bar ∧
      (∀ v c h, Reached paths tent v c h →
        Reached paths (links.foldl (followLink me u nhl paths) tent) v c h) ∧
      ∀ link ∈ links, link.status = .up → link.cost + paths.lookupCost u ≤ lsMaxCost + 1 →
        ∀ h ∈ if u = me then [link.neighborId] else nhl,
          Reached paths (links.foldl (followLink me u nhl paths) tent) link.neighborId
            (link.cost + paths.lookupCost u) h := by
  induction links generalizing tent with
  | nil => exact ⟨hs, fun _ _ _ h => h, fun _ h => absurd h not_mem_nil⟩
  | cons a links ih =>
    obtain ⟨hs₁, hmono₁, hnew₁⟩ := followLink_keeps hcosts hs hlsl hbar hon
      (hlinks a mem_cons_self)
    obtain ⟨hs₂, hmono₂, hnew₂⟩ := ih hs₁ fun link hl => hlinks link (mem_cons_of_mem a hl)
    rw [foldl_cons]
    refine ⟨hs₂, fun v c h hc => hmono₂ v c h (hmono₁ v c h hc), fun link hl hup hcap h hh => ?_⟩
    rcases mem_cons.1 hl with rfl | hl
    · exact hmono₂ _ _ _ (hnew₁ hup hcap h hh)
    · exact hnew₂ link hl hup hcap h hh

end

end Expand

/-- The two maps between two rounds of the loop. -/
structure Searching (db : LsTopoMap) (me : ℤ) (paths tent : LsPaths) : Prop where
  search : ∃ bar, Search db me paths tent bar
  followed : Followed (HasLink db) (lsMaxCost + 1) me LsEqualPaths.cost LsEqualPaths.nextHopList
    (paths.find ·) (tent.find ·)
  self : paths.find me = some ⟨0, [me]⟩
  valid : ∀ v ep, v ≠ me → paths.find v = some ep → v ≠ lsInvalidNodeId

/-- The path to `v` over `h` has been popped. -/
def Settled (paths : LsPaths) (q : ℤ × ℤ) : Prop := ∃ ep, paths.find q.1 = some ep ∧ q.2 ∈ ep.nextHopList

section Rounds

variable {db : LsTopoMap} {me : ℤ} {paths tent : LsPaths}
variable {paths' : LsPaths}

theorem CostsInRange.pos (hcosts : CostsInRange db) : ∀ u v x, HasLink db u v x → 0 < x :=
  fun u v x h => (hcosts u v x h).1

/-- The paths before the loop. -/
def toSelf (me : ℤ) : LsPaths := LsPaths.insertPathNoChecking ⟨me, 0, me⟩ OrdMap.empty

theorem find_toSelf : (toSelf me).find me = some ⟨0, [me]⟩ := OrdMap.find_set_self _ _ _

theorem eq_of_find_toSelf {v : ℤ} {ep : LsEqualPaths} (h : (toSelf me).find v = some ep) :
    v = me := by
  by_contra hv
  rw [show (toSelf me).find v = none from OrdMap.find_set_of_ne hv _ _] at h
  cases h

theorem search_toSelf : Search db me (toSelf me) OrdMap.empty 0 := by
  refine ⟨⟨_, find_toSelf, rfl⟩, fun v e hv he => absurd (eq_of_find_toSelf he) hv,
    fun v e hv he => absurd (eq_of_find_toSelf he) hv, fun v e he => ?_, nofun, nofun, nofun⟩
  obtain rfl := eq_of_find_toSelf he
  obtain rfl := Option.some.inj (find_toSelf.symm.trans he)
  exact ⟨(by decide : (0 : ℤ) < lsMaxCost + 1), le_rfl⟩

theorem Searching.alone (hdb : db.find me = none) : Searching db me (toSelf me) OrdMap.empty := by
  refine ⟨⟨0, search_toSelf⟩, ⟨fun v x hx => ?_, fun u e hu he => absurd (eq_of_find_toSelf he) hu⟩,
    find_toSelf, fun v ep hv hep => absurd (eq_of_find_toSelf hep) hv⟩
  obtain ⟨lsl, hlsl, -⟩ := hx
  rw [hdb] at hlsl
  cases hlsl

theorem Searching.start (hcosts : CostsInRange db) {lsl : List LsLinkState}
    (hlsl : db.find me = some lsl) :
    Searching db me (toSelf me) (lsl.foldl (followLink me me [] (toSelf me)) OrdMap.empty) := by
  have hcost : (toSelf me).lookupCost me = 0 := LsPaths.lookupCost_of_some find_toSelf
  have hon : Onward db me me [] ((toSelf me).lookupCost me) := by
    intro v x hx
    rw [if_pos rfl, hcost, add_zero]
    refine ⟨cons_ne_nil _ _, nodup_singleton v, fun h hh => ?_⟩
    obtain rfl := mem_singleton.1 hh
    exact FirstHop.single hx
  obtain ⟨hs', -, hnew⟩ := foldl_followLink hcosts search_toSelf hlsl hcost.ge hon lsl
    fun _ h => h
  refine ⟨⟨0, hs'⟩, ⟨fun v x hx hcap _ => ?_, fun u e hu he => absurd (eq_of_find_toSelf he) hu⟩,
    find_toSelf, fun v ep hv hep => absurd (eq_of_find_toSelf hep) hv⟩
  obtain ⟨lsl', hlsl', link, hlink, hup, rfl, rfl⟩ := hx
  obtain rfl := Option.some.inj (hlsl'.symm.trans hlsl)
  have := hnew link hlink hup (by rwa [hcost, add_zero]) link.neighborId (by
    rw [if_pos rfl]
    exact mem_singleton_self _)
  rwa [hcost, add_zero] at this

theorem Searching.invalid (hcosts : CostsInRange db) (hs : Searching db me paths tent)
    (ht : tent.entries ≠ []) (hinv : tent.popShortestPath.1.isValid = false) :
    ¬WithinReach db me := by
  obtain ⟨bar, hsearch⟩ := hs.search
  have hne : ∀ v ep, tent.find v = some ep → ep.nextHopList ≠ [] := fun v ep hep =>
    (hsearch.tentative v ep hep).nonempty
  rintro ⟨hcap, hnode⟩
  cases hfind : tent.findMinEqualPaths with
  | none =>
    -- what is left costs `LS_MAX_COST + 1`
    obtain ⟨⟨v, e⟩, he⟩ := exists_mem_of_ne_nil _ ht
    have hv := OrdMap.mem_entries.1 he
    have hcost : ∀ w f, tent.find w = some f → f.cost = lsMaxCost + 1 := fun w f hf =>
      le_antisymm (hsearch.above w f hf).2 (LsPaths.findMinEqualPaths_eq_none hne hfind hf)
    have := hsearch.isDist_of_least hs.followed hcosts.pos hv fun w f hf =>
      (hcost v e hv).trans (hcost w f hf).symm |>.le
    rw [hcost v e hv] at this
    exact hcap v this
  | some ve =>
    obtain ⟨v, e⟩ := ve
    obtain ⟨hv, hle, hmin⟩ := LsPaths.findMinEqualPaths_eq_some hne hfind
    obtain ⟨h, l, hl⟩ := exists_cons_of_ne_nil (hne v e hv)
    have hlab := hsearch.tentative v e hv
    have hdist := hsearch.isDist_of_least hs.followed hcosts.pos hv hmin
    have hfirst := hlab.sound h (hl ▸ mem_cons_self)
    rw [LsPaths.popShortestPath_eq hfind hl] at hinv
    have hcases : v = lsInvalidNodeId ∨ h = lsInvalidCost := by
      by_contra hnot
      rw [not_or] at hnot
      have : e.cost ≠ lsInvalidCost := fun heq => by
        rw [heq] at hle
        exact absurd hle (by decide)
      simp [LsPath.isValid, hnot.1, hnot.2, this] at hinv
    rcases hcases with rfl | rfl
    · exact absurd hle (hnode _ hlab.ne.symm hfirst.walk).not_ge
    · obtain ⟨x, y, hx, hy, hxy⟩ := hfirst
      have hy0 := hy.nonneg hcosts.pos
      have hx0 := hcosts.pos _ _ _ hx
      by_cases hme : me = lsInvalidCost
      · -- a walk that comes back to the source is not a shortest one
        have := hdist.2 y (hme ▸ hy)
        omega
      · have := hnode x hme (Walk.single hx)
        omega

/-- The path to `v` over `h` has been popped, and the links of `v` have been followed. -/
theorem Searching.next (hs : Searching db me paths tent) {v h : ℤ} {e : LsEqualPaths}
    {tent₁ tent' : LsPaths}
    (hpops : Pops LsEqualPaths.cost LsEqualPaths.nextHopList (paths.find ·) (tent.find ·) v e h
      (paths'.find ·) (tent₁.find ·)) (hcost : ∀ ep, paths.find v = some ep → ep.cost = e.cost)
    (hme : v ≠ me) (hv : v ≠ lsInvalidNodeId) (hsearch : Search db me paths' tent' e.cost)
    (hmono : ∀ w c h', Reached paths' tent₁ w c h' → Reached paths' tent' w c h')
    (hnew : ∀ f, paths'.find v = some f → ∀ w x, HasLink db v w x → e.cost + x ≤ lsMaxCost + 1 →
      ∀ h' ∈ f.nextHopList, Reached paths' tent' w (e.cost + x) h') :
    Searching db me paths' tent' := by
  have hkeep : ∀ {w c h'}, Reached paths tent w c h' → Reached paths' tent' w c h' := fun hr =>
    hmono _ _ _ (hpops.covered hcost hr)
  refine ⟨⟨e.cost, hsearch⟩, ⟨fun w x hx hcap hw => hkeep (hs.followed.source w x hx hcap hw),
    fun u f hu hf h' hh' w x hx hcap hw => ?_⟩, ?_, fun u f hu hf => ?_⟩
  · by_cases huv : u = v
    · subst huv
      obtain ⟨g, hg, hgc, -⟩ := hpops.settled
      obtain rfl := Option.some.inj (hf.symm.trans hg)
      rw [hgc] at hcap ⊢
      exact hnew f hf w x hx hcap h' hh'
    · have hfu := (hpops.frame u huv).1
      rw [hfu] at hf
      exact hkeep (hs.followed.other u f hu hf h' hh' w x hx hcap hw)
  · exact ((hpops.frame me hme.symm).1).trans hs.self
  · by_cases huv : u = v
    · exact huv ▸ hv
    · exact hs.valid u f hu (((hpops.frame u huv).1).symm.trans hf)

theorem Searching.round (hcosts : CostsInRange db) (hs : Searching db me paths tent)
    (hvalid : tent.popShortestPath.1.isValid = true) :
    ∃ paths' tent', (∀ fuel, popPaths me db (fuel + 1) paths tent = popPaths me db fuel paths' tent') ∧
      Searching db me paths' tent' ∧ (∀ q, Settled paths q → Settled paths' q) ∧
      ∃ v h c, v ≠ me ∧ FirstHop (HasLink db) me v c h ∧ ¬Settled paths (v, h) ∧
        Settled paths' (v, h) := by
  obtain ⟨bar, hsearch⟩ := hs.search
  have hne : ∀ v ep, tent.find v = some ep → ep.nextHopList ≠ [] := fun v ep hep =>
    (hsearch.tentative v ep hep).nonempty
  cases hfind : tent.findMinEqualPaths with
  | none =>
    rw [LsPaths.popShortestPath, hfind] at hvalid
    cases hvalid
  | some ve =>
    obtain ⟨v, e⟩ := ve
    obtain ⟨hv, hle, hmin⟩ := LsPaths.findMinEqualPaths_eq_some hne hfind
    obtain ⟨h, l, hl⟩ := exists_cons_of_ne_nil (hne v e hv)
    have hmem : h ∈ e.nextHopList := hl ▸ mem_cons_self
    have hlab := hsearch.tentative v e hv
    have hdist := hsearch.isDist_of_least hs.followed hcosts.pos hv hmin
    have hapart : ∀ ep, paths.find v = some ep → ep.cost = e.cost ∧ h ∉ ep.nextHopList :=
      fun ep hep => by
        obtain ⟨hcost, hdis⟩ := hsearch.apart v ep e hep hv
        exact ⟨hcost, fun hh => hdis h hh hmem⟩
    have hpop := LsPaths.popShortestPath_eq hfind hl
    have hpops := LsPaths.pops_popShortestPath hfind hl hv hapart
    have hs₁ := hsearch.pop hdist hmin (Int.lt_add_one_iff.2 hle) hpops
    obtain ⟨f, hf, hfc, hfl⟩ := hpops.settled
    set paths' := paths.insertPath ⟨v, e.cost, h⟩ with hpaths'
    set tent₁ := tent.popShortestPath.2 with htent₁
    have hvi : v ≠ lsInvalidNodeId := by
      rintro rfl
      rw [hpop] at hvalid
      simp [LsPath.isValid] at hvalid
    have hempty : tent.entries.isEmpty = false := by
      have := OrdMap.mem_entries.2 hv
      simpa using ne_nil_of_mem this
    have hround : ∀ fuel, popPaths me db (fuel + 1) paths tent =
        (db.find v).elim (popPaths me db fuel paths' tent₁) fun lsl =>
          (expand me v lsl paths' tent₁).elim (some .aborted) (popPaths me db fuel paths') := by
      intro fuel
      have hfst : tent.popShortestPath.1 = ⟨v, e.cost, h⟩ := by rw [hpop]
      rw [hfst] at hvalid
      rw [popPaths, hempty]
      simp only [Bool.false_eq_true, if_false, hvalid, not_true_eq_false, hfst]
      cases db.find v with
      | none => rfl
      | some lsl =>
        change _ = (expand me v lsl (paths.insertPath ⟨v, e.cost, h⟩) tent.popShortestPath.2).elim _ _
        dsimp only
        cases expand me v lsl (paths.insertPath ⟨v, e.cost, h⟩) tent.popShortestPath.2 <;> rfl
    have hgrow : ∀ q, Settled paths q → Settled paths' q := by
      rintro ⟨w, h'⟩ hsettled
      obtain ⟨ep, hep, hh'⟩ := hsettled
      by_cases hw : w = v
      · subst hw
        refine ⟨f, hf, ?_⟩
        rw [hfl, hep]
        exact mem_append_left _ hh'
      · exact ⟨ep, ((hpops.frame w hw).1).trans hep, hh'⟩
    have hnew : FirstHop (HasLink db) me v e.cost h ∧ ¬Settled paths (v, h) ∧
        Settled paths' (v, h) := by
      have hunsettled : ¬Settled paths (v, h) := by
        rintro ⟨ep, hep, hh⟩
        exact (hapart ep hep).2 hh
      refine ⟨hlab.sound h hmem, hunsettled, f, hf, ?_⟩
      rw [hfl]
      exact mem_append_right _ (mem_singleton_self h)
    have hcost : ∀ ep, paths.find v = some ep → ep.cost = e.cost := fun ep hep => (hapart ep hep).1
    cases hdb : db.find v with
    | none =>
      refine ⟨paths', tent₁, fun fuel => by rw [hround, hdb, Option.elim_none], ?_, hgrow, v, h, e.cost, hlab.ne, hnew⟩
      refine hs.next hpops hcost hlab.ne hvi hs₁ (fun _ _ _ h => h) fun _ _ w x hx => ?_
      obtain ⟨lsl, hlsl, -⟩ := hx
      rw [hdb] at hlsl
      cases hlsl
    | some lsl =>
      have hlook : paths'.lookupCost v = e.cost := (LsPaths.lookupCost_of_some hf).trans hfc
      have hfl' := hs₁.settled v f hlab.ne hf
      have hon : Onward db me v f.nextHopList (paths'.lookupCost v) := by
        intro w x hx
        rw [if_neg hlab.ne, hlook, add_comm]
        exact ⟨hfl'.nonempty, hfl'.nodup, fun h' hh' => hfc ▸ (hfl'.sound h' hh').snoc hx⟩
      obtain ⟨hs₂, hmono, hreach⟩ := foldl_followLink hcosts hs₁ hdb hlook.ge hon lsl
        fun _ hl => hl
      have hexp : expand me v lsl paths' tent₁ =
          some (lsl.foldl (followLink me v f.nextHopList paths') tent₁) := by
        rw [expand, if_neg hlab.ne, LsPaths.lookupNextHopList]
        simp only [hf]
        rfl
      refine ⟨paths', lsl.foldl (followLink me v f.nextHopList paths') tent₁, fun fuel => ?_, ?_,
        hgrow, v, h, e.cost, hlab.ne, hnew⟩
      · rw [hround, hdb, Option.elim_some, hexp, Option.elim_some]
      refine hs.next hpops hcost hlab.ne hvi hs₂ hmono fun g hg w x hx hcap h' hh' => ?_
      obtain rfl := Option.some.inj (hf.symm.trans hg)
      obtain ⟨lsl', hlsl', link, hlink, hup, rfl, rfl⟩ := hx
      obtain rfl := Option.some.inj (hlsl'.symm.trans hdb)
      have := hreach link hlink hup (by rwa [hlook, add_comm]) h' (by rwa [if_neg hlab.ne])
      rwa [hlook, add_comm] at this

theorem popPaths_of_empty (ht : tent.entries = []) (fuel : ℕ) :
    popPaths me db (fuel + 1) paths tent = some (.returned paths) := by
  rw [popPaths, ht]
  rfl

theorem popPaths_of_invalid (ht : tent.entries ≠ []) (fuel : ℕ)
    (hinv : tent.popShortestPath.1.isValid = false) :
    popPaths me db (fuel + 1) paths tent = some .aborted := by
  rw [popPaths, if_neg (by simpa using ht)]
  simp [hinv]

theorem Searching.returned (hcosts : CostsInRange db) (hs : Searching db me paths tent) {fuel : ℕ}
    (h : popPaths me db fuel paths tent = some (.returned paths')) :
    ∃ tent', Searching db me paths' tent' ∧ tent'.entries = [] := by
  induction fuel generalizing paths tent with
  | zero => cases h
  | succ fuel ih =>
    by_cases ht : tent.entries = []
    · rw [popPaths_of_empty ht] at h
      obtain rfl : paths = paths' := by simpa using h
      exact ⟨tent, hs, ht⟩
    · cases hinv : tent.popShortestPath.1.isValid with
      | false =>
        rw [popPaths_of_invalid ht fuel hinv] at h
        simp at h
      | true =>
        obtain ⟨paths₁, tent₁, hround, hs₁, -⟩ := hs.round hcosts hinv
        exact ih hs₁ (hround fuel ▸ h)

/-- The nodes that links lead to. -/
def neighbours (db : LsTopoMap) : Finset ℤ :=
  (db.entries.flatMap fun e => e.2.map LsLinkState.neighborId).toFinset

theorem HasLink.mem_neighbours {u v x : ℤ} (h : HasLink db u v x) : v ∈ neighbours db := by
  obtain ⟨lsl, hlsl, link, hlink, -, rfl, -⟩ := h
  refine mem_toFinset.2 (mem_flatMap.2 ⟨(u, lsl), OrdMap.mem_entries.2 hlsl, ?_⟩)
  exact mem_map_of_mem hlink

theorem mem_neighbours_of_walk {v c : ℤ} (h : Walk (HasLink db) me v c) (hv : v ≠ me) :
    v ∈ neighbours db := by
  cases h with
  | nil => exact absurd rfl hv
  | snoc _ hlink => exact hlink.mem_neighbours

open Classical in
theorem Searching.returns (hcosts : CostsInRange db) (hw : WithinReach db me)
    (hs : Searching db me paths tent) :
    ∃ fuel paths', popPaths me db fuel paths tent = some (.returned paths') := by
  generalize hm : ((neighbours db ×ˢ neighbours db).filter fun q => ¬Settled paths q).card = m
  induction m using Nat.strong_induction_on generalizing paths tent with
  | _ m ih =>
    by_cases ht : tent.entries = []
    · exact ⟨1, paths, popPaths_of_empty ht 0⟩
    · have hvalid : tent.popShortestPath.1.isValid = true := by
        by_contra hinv
        exact hs.invalid hcosts ht (Bool.eq_false_iff.2 hinv) hw
      obtain ⟨paths₁, tent₁, hround, hs₁, hgrow, v, h, c, hv, hhop, hnot, hin⟩ :=
        hs.round hcosts hvalid
      have hlt : ((neighbours db ×ˢ neighbours db).filter fun q => ¬Settled paths₁ q).card < m := by
        rw [← hm]
        refine Finset.card_lt_card ⟨fun q hq => ?_, fun hsub => ?_⟩
        · rw [Finset.mem_filter] at hq ⊢
          exact ⟨hq.1, fun hset => hq.2 (hgrow q hset)⟩
        · obtain ⟨x, -, hx, -⟩ := id hhop
          have hmem : (v, h) ∈ neighbours db ×ˢ neighbours db :=
            Finset.mem_product.2 ⟨mem_neighbours_of_walk hhop.walk hv, hx.mem_neighbours⟩
          exact (Finset.mem_filter.1 (hsub (Finset.mem_filter.2 ⟨hmem, hnot⟩))).2 hin
      obtain ⟨fuel, paths', hfuel⟩ := ih _ hlt hs₁ rfl
      exact ⟨fuel + 1, paths', (hround fuel).trans hfuel⟩

section

variable (hcosts : CostsInRange db) (hs : Searching db me paths tent) (ht : tent.entries = [])
include hcosts hs ht

theorem Searching.withinReach : WithinReach db me := by
  obtain ⟨bar, hsearch⟩ := hs.search
  have hnone : ∀ v, tent.find v = none := fun v => by rw [OrdMap.find, ht, lookupEntry]
  refine ⟨fun v hv => ?_, fun c hme hc => ?_⟩
  · rcases hv.1.firstHop with ⟨rfl, -⟩ | ⟨h, hh⟩
    · exact absurd (hv.2 _ Walk.nil) (by decide)
    · have hvm : v ≠ me := by
        rintro rfl
        exact absurd (hv.2 _ Walk.nil) (by decide)
      obtain ⟨e, he, hcost, -⟩ := hsearch.complete hs.followed hcosts.pos hnone hv le_rfl hvm hh
      exact absurd (hsearch.below v e he).1 hcost.not_lt
  · by_contra hle
    rcases hsearch.reach hs.followed hcosts.pos hc (by omega) with ⟨e, he, -⟩ | ⟨u, e, he, -⟩
    · exact hs.valid _ e hme.symm he rfl
    · rw [hnone] at he
      cases he

theorem Searching.equalCostPaths : EqualCostPaths db me paths := by
  obtain ⟨bar, hsearch⟩ := hs.search
  have hnone : ∀ v, tent.find v = none := fun v => by rw [OrdMap.find, ht, lookupEntry]
  have hfound : ∀ {v c h}, v ≠ me → IsDist (HasLink db) me v c → c ≤ lsMaxCost →
      FirstHop (HasLink db) me v c h →
      ∃ e, paths.find v = some e ∧ e.cost = c ∧ h ∈ e.nextHopList := fun hv hd hc hh =>
    hsearch.complete hs.followed hcosts.pos hnone hd (by omega) hv hh
  refine ⟨hs.self, fun v ep hv hep => ?_, fun v c hv hd hc => ?_⟩
  · have hd := hsearch.isDist v ep hv hep
    have hle : ep.cost ≤ lsMaxCost := Int.lt_add_one_iff.1 (hsearch.below v ep hep).1
    have hlab := hsearch.settled v ep hv hep
    refine ⟨hd, hle, hlab.nodup, fun h => ⟨hlab.sound h, fun hh => ?_⟩⟩
    obtain ⟨e, he, -, hmem⟩ := hfound hv hd hle hh
    exact Option.some.inj (he.symm.trans hep) ▸ hmem
  · rcases hd.1.firstHop with ⟨rfl, -⟩ | ⟨h, hh⟩
    · exact absurd rfl hv
    · obtain ⟨e, he, -⟩ := hfound hv hd hc hh
      exact ⟨e, he⟩

end

/-- `_computeRoutes` returns the paths of equal least cost if and only if no node is at the cost
`LS_MAX_COST + 1`, which is accepted as tentative and never popped. -/
theorem computeRoutes_equalCostPaths_iff (hcosts : CostsInRange db) :
    (∃ fuel paths, computeRoutes me db fuel = some (.returned paths) ∧ EqualCostPaths db me paths) ↔
      WithinReach db me := by
  cases hdb : db.find me with
  | none =>
    have hret : ∀ fuel, computeRoutes me db fuel = some (.returned (toSelf me)) := fun fuel => by
      rw [computeRoutes, hdb]
      rfl
    have hs := Searching.alone hdb
    exact ⟨fun _ => hs.withinReach hcosts rfl, fun _ => ⟨0, _, hret 0, hs.equalCostPaths hcosts rfl⟩⟩
  | some lsl =>
    have hrun : ∀ fuel, computeRoutes me db fuel = popPaths me db fuel (toSelf me)
        (lsl.foldl (followLink me me [] (toSelf me)) OrdMap.empty) := fun fuel => by
      rw [computeRoutes, hdb]
      simp only [expand, if_true]
      rfl
    have hs := Searching.start hcosts hdb
    constructor
    · rintro ⟨fuel, paths, hret, -⟩
      obtain ⟨tent, hs', ht⟩ := hs.returned hcosts (hrun fuel ▸ hret)
      exact hs'.withinReach hcosts ht
    · intro hw
      obtain ⟨fuel, paths, hret⟩ := hs.returns hcosts hw
      obtain ⟨tent, hs', ht⟩ := hs.returned hcosts hret
      exact ⟨fuel, paths, (hrun fuel).trans hret, hs'.equalCostPaths hcosts ht⟩

end Rounds

/-- Two paths of the same cost lead from 0 to 3. -/
def diamond : LsTopoMap :=
  ((OrdMap.empty.set 0 [⟨1, .up, 1⟩, ⟨2, .up, 2⟩]).set 1 [⟨3, .up, 2⟩, ⟨0, .down, 0⟩]).set 2
    [⟨3, .up, 1⟩]

example : ∃ paths, computeRoutes 0 diamond 5 = some (.returned paths) ∧
    paths.entries = [(0, ⟨0, [0]⟩), (1, ⟨1, [1]⟩), (2, ⟨2, [2]⟩), (3, ⟨3, [1, 2]⟩)] :=
  ⟨_, rfl, rfl⟩

/-- The path from 0 to 2 costs `LS_MAX_COST + 1`. -/
def farChain : LsTopoMap := (OrdMap.empty.set 0 [⟨1, .up, lsMaxCost⟩]).set 1 [⟨2, .up, 1⟩]

theorem costsInRange_of_forall {db : LsTopoMap}
    (h : ∀ e ∈ db.entries, ∀ link ∈ e.2, link.status = .up → 1 ≤ link.cost ∧ link.cost ≤ lsMaxCost) :
    CostsInRange db := by
  rintro u v x ⟨lsl, hlsl, link, hlink, hup, -, rfl⟩
  exact h (u, lsl) (OrdMap.mem_entries.2 hlsl) link hlink hup

theorem computeRoutes_equalCostPaths_iff_diamond : CostsInRange diamond ∧
    ((∃ fuel paths, computeRoutes 0 diamond fuel = some (.returned paths) ∧
      EqualCostPaths diamond 0 paths) ↔ WithinReach diamond 0) := by
  have hcosts : CostsInRange diamond := costsInRange_of_forall (by decide)
  exact ⟨hcosts, computeRoutes_equalCostPaths_iff hcosts⟩

theorem not_computeRoutes_farChain : CostsInRange farChain ∧
    computeRoutes 0 farChain 2 = some .aborted ∧
      ¬∃ fuel paths, computeRoutes 0 farChain fuel = some (.returned paths) := by
  refine ⟨costsInRange_of_forall (by decide), rfl, ?_⟩
  rintro ⟨fuel, paths, h⟩
  match fuel with
  | 0 => cases h
  | 1 => cases h
  | _ + 2 => cases h

end Ns2.LinkState
