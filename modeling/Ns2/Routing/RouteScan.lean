import Mathlib.Data.List.Range
import Ns2.Lib.ShortestPath
import Ns2.Routing.RouteLogic

/-! The scan of one source of `compute_routes` settles the nearest node next. -/

namespace Ns2

open List Function

theorem index_inj {i j i' j' n : ℕ} (hj : j < n) (hj' : j' < n) :
    index i j n = index i' j' n ↔ i = i' ∧ j = j' := by
  unfold index
  constructor
  · intro h
    have hn : 0 < n := Nat.zero_lt_of_lt hj
    have hi := congrArg (· / n) h
    simp only [Nat.mul_add_div hn, Nat.div_eq_of_lt hj, Nat.div_eq_of_lt hj', Nat.add_zero] at hi
    subst hi
    exact ⟨rfl, Nat.add_left_cancel h⟩
  · rintro ⟨rfl, rfl⟩
    rfl

namespace RouteScan

theorem mem_nodes {n v : ℕ} : v ∈ nodes n ↔ 0 < v ∧ v < n := by
  unfold nodes
  rw [mem_range'_1]
  omega

theorem nodup_nodes (n : ℕ) : (nodes n).Nodup := nodup_range'

/-- The cells of the row of `k`. -/
def InRow (n k i : ℕ) : Prop := ∃ v ∈ nodes n, i = index k v n

variable {K : Type*} [LinearOrder K] {adj : ℕ → K} {n k o v w i : ℕ} {s : RouteScan K} {l : List ℕ}

section Neighbours

variable [NatCast K]

@[simp] theorem setNeighbour_parent : (setNeighbour adj n k s w).parent = s.parent := by
  unfold setNeighbour
  split_ifs <;> rfl

theorem setNeighbour_hopcnt : (setNeighbour adj n k s w).hopcnt v =
    if v = w ∧ s.parent w ≠ k then adj (index k v n) else s.hopcnt v := by
  unfold setNeighbour
  by_cases hv : v = w
  · subst hv
    split_ifs <;> simp_all
  · split_ifs <;> simp_all

theorem setNeighbour_route : (setNeighbour adj n k s w).route i =
    if i = index k w n ∧ s.parent w ≠ k ∧ adj (index k w n) ≠ infinity K then w
    else s.route i := by
  unfold setNeighbour
  by_cases hi : i = index k w n
  · subst hi
    split_ifs <;> simp_all
  · split_ifs <;> simp_all

variable (adj) in
theorem foldl_setNeighbour (hn : ∀ v ∈ l, v ∈ nodes n) :
    (l.foldl (setNeighbour adj n k) s).parent = s.parent ∧
    (∀ v, (l.foldl (setNeighbour adj n k) s).hopcnt v =
      if v ∈ l ∧ s.parent v ≠ k then adj (index k v n) else s.hopcnt v) ∧
    (∀ v ∈ nodes n, (l.foldl (setNeighbour adj n k) s).route (index k v n) =
      if v ∈ l ∧ s.parent v ≠ k ∧ adj (index k v n) ≠ infinity K then v
      else s.route (index k v n)) ∧
    ∀ i, ¬InRow n k i → (l.foldl (setNeighbour adj n k) s).route i = s.route i := by
  induction l generalizing s with
  | nil => simp
  | cons a l ih =>
    rw [forall_mem_cons] at hn
    obtain ⟨hp, hh, hr, hf⟩ := ih (s := setNeighbour adj n k s a) hn.2
    rw [foldl_cons]
    refine ⟨hp.trans setNeighbour_parent, fun v => ?_, fun v hv => ?_, fun i hi => ?_⟩
    · rw [hh, setNeighbour_parent, setNeighbour_hopcnt]
      grind
    · rw [hr v hv, setNeighbour_parent, setNeighbour_route]
      simp only [index_inj (mem_nodes.1 hv).2 (mem_nodes.1 hn.1).2]
      grind
    · rw [hf i hi, setNeighbour_route, if_neg fun h => hi ⟨a, hn.1, h.1⟩]

end Neighbours

section Update

variable [Add K]

@[simp] theorem update_parent : (update adj n k o s w).parent = s.parent := by
  unfold update
  split_ifs <;> rfl

theorem update_hopcnt : (update adj n k o s w).hopcnt v =
    if v = w ∧ s.parent w ≠ k ∧ s.hopcnt o + adj (index o w n) < s.hopcnt w then
      s.hopcnt o + adj (index o w n)
    else s.hopcnt v := by
  unfold update
  by_cases hv : v = w
  · subst hv
    split_ifs <;> simp_all
  · split_ifs <;> simp_all

theorem update_route : (update adj n k o s w).route i =
    if i = index k w n ∧ s.parent w ≠ k ∧ s.hopcnt o + adj (index o w n) < s.hopcnt w then
      s.route (index k o n)
    else s.route i := by
  unfold update
  by_cases hi : i = index k w n
  · subst hi
    split_ifs <;> simp_all
  · split_ifs <;> simp_all

theorem foldl_update_frame (hn : ∀ v ∈ l, v ∈ nodes n) (hi : ¬InRow n k i) :
    (l.foldl (update adj n k o) s).route i = s.route i := by
  induction l generalizing s with
  | nil => rfl
  | cons a l ih =>
    rw [forall_mem_cons] at hn
    rw [foldl_cons, ih hn.2, update_route, if_neg fun h => hi ⟨a, hn.1, h.1⟩]

variable (adj) in
theorem foldl_update (hl : l.Nodup) (hn : ∀ v ∈ l, v ∈ nodes n) (ho : s.parent o = k)
    (hon : o ∈ nodes n) :
    (l.foldl (update adj n k o) s).parent = s.parent ∧
    (∀ v, (l.foldl (update adj n k o) s).hopcnt v =
      if v ∈ l ∧ s.parent v ≠ k ∧ s.hopcnt o + adj (index o v n) < s.hopcnt v then
        s.hopcnt o + adj (index o v n)
      else s.hopcnt v) ∧
    ∀ v ∈ nodes n, (l.foldl (update adj n k o) s).route (index k v n) =
      if v ∈ l ∧ s.parent v ≠ k ∧ s.hopcnt o + adj (index o v n) < s.hopcnt v then
        s.route (index k o n)
      else s.route (index k v n) := by
  induction l generalizing s with
  | nil => simp
  | cons a l ih =>
    rw [nodup_cons] at hl
    rw [forall_mem_cons] at hn
    obtain ⟨hp, hh, hr⟩ := ih (s := update adj n k o s a) hl.2 hn.2 (by simpa using ho)
    rw [foldl_cons]
    -- the cells of `o` are not changed, for it is routed
    have hho : (update adj n k o s a).hopcnt o = s.hopcnt o := by
      rw [update_hopcnt, if_neg fun h => h.2.1 (h.1 ▸ ho)]
    have hro : (update adj n k o s a).route (index k o n) = s.route (index k o n) := by
      rw [update_route, if_neg]
      rintro ⟨hcell, hpar, -⟩
      exact hpar (((index_inj (mem_nodes.1 hon).2 (mem_nodes.1 hn.1).2).1 hcell).2 ▸ ho)
    refine ⟨hp.trans update_parent, fun v => ?_, fun v hv => ?_⟩
    · rw [hh, update_parent, hho, update_hopcnt]
      grind
    · rw [hr v hv, update_parent, hho, hro, update_hopcnt, update_route]
      simp only [index_inj (mem_nodes.1 hv).2 (mem_nodes.1 hn.1).2]
      grind

variable [NatCast K]

theorem extend_frame (hi : ¬InRow n k i) : (s.extend adj n k).route i = s.route i := by
  unfold extend
  dsimp only
  split_ifs
  · rfl
  · exact foldl_update_frame (fun v hv => hv) hi

/-- The scan of a source writes no other row. -/
theorem scan_frame (hi : ¬InRow n k i) : (scan adj n s k).route i = s.route i := by
  have hextend : ∀ (l : List ℕ) (t : RouteScan K),
      (l.foldl (fun s _ => s.extend adj n k) t).route i = t.route i := by
    intro l
    induction l with
    | nil => exact fun _ => rfl
    | cons a l ih => exact fun t => (ih _).trans (extend_frame hi)
  obtain ⟨-, -, -, hfirst⟩ := foldl_setNeighbour adj (k := k)
    (s := { s with parent := id }) fun v (hv : v ∈ nodes n) => hv
  exact (hextend _ _).trans (hfirst i hi)

end Update

theorem foldl_nearest (k : ℕ) (s : RouteScan K) (l : List ℕ) (o : ℕ) :
    let o' := l.foldl (fun o w => if s.parent w ≠ k ∧ s.hopcnt w < s.hopcnt o then w else o) o
    (o' = o ∨ o' ∈ l ∧ s.parent o' ≠ k) ∧ (o' = o ∨ s.hopcnt o' < s.hopcnt o) ∧
      ∀ w ∈ l, s.parent w ≠ k → s.hopcnt o' ≤ s.hopcnt w := by
  induction l generalizing o with
  | nil => simp
  | cons a l ih =>
    obtain ⟨hmem, hlt, hmin⟩ := ih (if s.parent a ≠ k ∧ s.hopcnt a < s.hopcnt o then a else o)
    dsimp only at hmem hlt hmin ⊢
    rw [foldl_cons]
    generalize l.foldl _ _ = o' at hmem hlt hmin ⊢
    have hle : s.hopcnt o' ≤
        s.hopcnt (if s.parent a ≠ k ∧ s.hopcnt a < s.hopcnt o then a else o) := by
      rcases hlt with rfl | hlt
      · exact le_rfl
      · exact hlt.le
    refine ⟨?_, ?_, fun w hw hwk => ?_⟩
    · grind
    · grind
    · rcases mem_cons.1 hw with rfl | hw
      · refine hle.trans ?_
        split_ifs with ha
        · exact le_rfl
        · exact le_of_not_gt fun h => ha ⟨hwk, h⟩
      · exact hmin w hw hwk

section Search

variable {K : Type*} {adj : ℕ → K} {n k v : ℕ} {s : RouteScan K}

def hop (n k : ℕ) (s : RouteScan K) (v : ℕ) : ℕ :=
  if v ∈ nodes n then s.route (index k v n) else 0

def Routed (n k : ℕ) (s : RouteScan K) : Set ℕ := {v | v ∈ nodes n ∧ s.parent v = k}

theorem hop_eq (hv : v ∈ nodes n) : hop n k s v = s.route (index k v n) := if_pos hv

theorem hop_of_not_mem (hv : v ∉ nodes n) : hop n k s v = 0 := if_neg hv

/-- The number of nodes routed. -/
def routedCount (n k : ℕ) (s : RouteScan K) : ℕ :=
  ((nodes n).toFinset.filter fun v => s.parent v = k).card

theorem routedCount_le : routedCount n k s ≤ n - 1 := by
  unfold routedCount
  refine (Finset.card_filter_le _ _).trans ?_
  rw [toFinset_card_of_nodup (nodup_nodes n), nodes, length_range']

variable [Ring K]

/-- The links of the matrix. -/
def Link (adj : ℕ → K) (n u v : ℕ) (x : K) : Prop :=
  u ∈ nodes n ∧ v ∈ nodes n ∧ adj (index u v n) = x ∧ x ≠ infinity K

/-- The matrix, with no link outside of the nodes. -/
def weight (adj : ℕ → K) (n u v : ℕ) : K :=
  if u ∈ nodes n ∧ v ∈ nodes n then adj (index u v n) else infinity K

def dist (n k : ℕ) (s : RouteScan K) (v : ℕ) : K :=
  if v = k then 0 else if v ∈ nodes n then s.hopcnt v else infinity K

/-- A walk to `v` of cost `c` begins with the hop to `r`. -/
def Begins (adj : ℕ → K) (n k v : ℕ) (c : K) (r : ℕ) : Prop :=
  v = k ∨ ∃ x c', Link adj n k r x ∧ Walk (Link adj n) r v c' ∧ c = x + c'

theorem Begins.walk {c : K} {r : ℕ} (h : Begins adj n k v c r) : ∃ c, Walk (Link adj n) k v c := by
  rcases h with rfl | ⟨x, c', hlink, hwalk, -⟩
  · exact ⟨0, Walk.nil⟩
  · exact ⟨x + c', (Walk.single hlink).trans hwalk⟩

theorem Begins.snoc {c x : K} {r w : ℕ} (h : Begins adj n k v c r) (hvk : v ≠ k)
    (hlink : Link adj n v w x) : Begins adj n k w (c + x) r := by
  obtain ⟨y, c', hfirst, hwalk, rfl⟩ := h.resolve_left hvk
  exact .inr ⟨y, c' + x, hfirst, hwalk.snoc hlink, add_assoc _ _ _⟩

theorem dist_eq (hv : v ∈ nodes n) (hvk : v ≠ k) : dist n k s v = s.hopcnt v := by
  unfold dist
  rw [if_neg hvk, if_pos hv]

theorem dist_of_not_mem (hv : v ∉ nodes n) (hvk : v ≠ k) : dist n k s v = infinity K := by
  unfold dist
  rw [if_neg hvk, if_neg hv]

variable [LinearOrder K]

/-- Costs are positive. -/
def Positive (adj : ℕ → K) (n : ℕ) : Prop := ∀ u ∈ nodes n, ∀ v ∈ nodes n, 0 < adj (index u v n)

theorem link_weight {u : ℕ} (h : weight adj n u v < infinity K) :
    Link adj n u v (weight adj n u v) := by
  unfold weight at h ⊢
  split_ifs at h ⊢ with hnodes
  · exact ⟨hnodes.1, hnodes.2, rfl, h.ne⟩
  · exact absurd h (lt_irrefl _)

/-- What the scan of `k` keeps: a search, and no route to a node that no walk leads to. -/
structure Scanned (adj : ℕ → K) (n k : ℕ) (s : RouteScan K) : Prop where
  source : s.parent k = k
  search : Search (weight adj n) (infinity K) k (Begins adj n k) (Routed n k s) (dist n k s)
    (hop n k s)
  unreached : ∀ v ∈ nodes n, v ≠ k → (∀ c, ¬Walk (Link adj n) k v c) →
    s.hopcnt v = infinity K ∧ s.route (index k v n) = 0

theorem Scanned.congr {t : RouteScan K} (h : Scanned adj n k s) (hk : k ∈ nodes n)
    (hp : ∀ v ∈ nodes n, t.parent v = s.parent v) (hh : ∀ v ∈ nodes n, t.hopcnt v = s.hopcnt v)
    (hr : t.route = s.route) : Scanned adj n k t := by
  have hrouted : Routed n k t = Routed n k s := by
    ext v
    exact and_congr_right fun hv => by rw [hp v hv]
  have hdist : dist n k t = dist n k s := by
    funext v
    unfold dist
    split_ifs with hvk hv
    · rfl
    · exact hh v hv
    · rfl
  have hhop : hop n k t = hop n k s := by
    unfold hop
    rw [hr]
  refine ⟨(hp k hk).trans h.source, ?_, fun v hv hvk hno => ?_⟩
  · rw [hrouted, hdist, hhop]
    exact h.search
  · rw [hh v hv, hr]
    exact h.unreached v hv hvk hno

/-- A node that can be reached has been routed. -/
def Done (n k : ℕ) (s : RouteScan K) : Prop :=
  ∀ v ∈ nodes n, s.parent v ≠ k → infinity K ≤ s.hopcnt v

theorem nearest_spec (hzero : s.hopcnt 0 = infinity K) :
    (s.nearest n k = 0 ∧ Done n k s) ∨ (s.nearest n k ∈ nodes n ∧ s.parent (s.nearest n k) ≠ k ∧
      s.hopcnt (s.nearest n k) < infinity K ∧
      ∀ v ∈ nodes n, s.parent v ≠ k → s.hopcnt (s.nearest n k) ≤ s.hopcnt v) := by
  obtain ⟨hmem, hlt, hmin⟩ := foldl_nearest k s (nodes n) 0
  rw [hzero] at hlt
  by_cases ho : s.nearest n k = 0
  · refine .inl ⟨ho, fun v hv hvk => ?_⟩
    rw [← hzero, ← ho]
    exact hmin v hv hvk
  · obtain ⟨hnode, hpar⟩ := hmem.resolve_left ho
    exact .inr ⟨hnode, hpar, hlt.resolve_left ho, hmin⟩

variable [IsStrictOrderedRing K]

theorem infinity_pos : 0 < infinity K := by
  unfold infinity
  exact_mod_cast (by decide : 0 < 0x3fff)

theorem weight_nonneg (hadj : Positive adj n) (u v : ℕ) : 0 ≤ weight adj n u v := by
  unfold weight
  split_ifs with h
  · exact (hadj u h.1 v h.2).le
  · exact infinity_pos.le

theorem Scanned.neighbours (hadj : Positive adj n) (hk : k ∈ nodes n) (hid : s.parent = id)
    (hrow : ∀ v ∈ nodes n, s.route (index k v n) = 0) :
    Scanned adj n k ((nodes n).foldl (setNeighbour adj n k) s) := by
  obtain ⟨hp, hh, hr, -⟩ := foldl_setNeighbour _ (k := k) (s := s) fun v hv => hv
  generalize (nodes n).foldl (setNeighbour adj n k) s = t at hp hh hr
  rw [hid] at hp hh hr
  have hrouted : Routed n k t = {k} := by
    ext v
    rw [Routed, Set.mem_ofPred_eq, hp, Set.mem_singleton_iff]
    exact ⟨fun h => h.2, fun h => ⟨h ▸ hk, h⟩⟩
  have hdist : ∀ v, v ≠ k → dist n k t v = weight adj n k v := by
    intro v hv
    unfold weight
    by_cases hvn : v ∈ nodes n
    · rw [dist_eq hvn hv, if_pos ⟨hk, hvn⟩, hh, if_pos ⟨hvn, hv⟩]
    · rw [dist_of_not_mem hvn hv, if_neg fun h => hvn h.2]
  have hzero : dist n k t k = 0 := if_pos rfl
  refine ⟨by rw [hp]; rfl, ⟨hzero, fun v => ?_, ?_, ?_, ?_, ?_⟩, fun v hv hvk hno => ?_⟩
  · by_cases hv : v = k
    · rw [hv, hzero]
    · rw [hdist v hv]
      exact weight_nonneg hadj k v
  · rw [hrouted]
    rintro u rfl
    rw [hzero]
    exact infinity_pos
  · rw [hrouted]
    rintro u rfl v hv
    rw [hzero, hdist v hv]
    exact weight_nonneg hadj u v
  · rw [hrouted]
    rintro u rfl v
    rw [hzero, zero_add]
    by_cases hv : v = u
    · rw [hv, hzero]
      exact weight_nonneg hadj u u
    · rw [hdist v hv]
  · intro v hv
    by_cases hvk : v = k
    · exact .inl hvk
    · rw [hdist v hvk] at hv ⊢
      have hlink := link_weight hv
      rw [hop_eq hlink.2.1, hr v hlink.2.1,
        if_pos ⟨hlink.2.1, hvk, hlink.2.2.1 ▸ hlink.2.2.2⟩]
      exact .inr ⟨_, 0, hlink, Walk.nil, (add_zero _).symm⟩
  · have hadjk : adj (index k v n) = infinity K := by
      by_contra hne
      exact hno _ (Walk.single ⟨hk, hv, rfl, hne⟩)
    rw [hh, if_pos ⟨hv, hvk⟩, hr v hv, if_neg fun h => h.2.2 hadjk]
    exact ⟨hadjk, hrow v hv⟩

theorem Scanned.settle (h : Scanned adj n k s) (hadj : Positive adj n) (hk : k ∈ nodes n) {o : ℕ}
    (ho : o ∈ nodes n) (hok : s.parent o ≠ k) (hlt : s.hopcnt o < infinity K)
    (hmin : ∀ v ∈ nodes n, s.parent v ≠ k → s.hopcnt o ≤ s.hopcnt v) :
    Scanned adj n k ((nodes n).foldl (update adj n k o)
      { s with parent := Function.update s.parent o k }) := by
  obtain ⟨hp, hh, hr⟩ := foldl_update _
    (s := { s with parent := Function.update s.parent o k }) (nodup_nodes n) (fun v hv => hv)
    (update_self o k s.parent) ho
  generalize (nodes n).foldl (update adj n k o) _ = t at hp hh hr
  dsimp only at hp hh hr
  have hne : o ≠ k := fun heq => hok (heq ▸ h.source)
  have hrouted : Routed n k t = insert o (Routed n k s) := by
    ext v
    rw [Routed, Routed, Set.mem_ofPred_eq, hp, Set.mem_insert_iff, Set.mem_ofPred_eq]
    by_cases hvo : v = o
    · subst hvo
      simp [ho]
    · simp [hvo]
  have hdo : dist n k s o = s.hopcnt o := dist_eq ho hne
  have hparent : ∀ v, v ≠ o → t.parent v = s.parent v := fun v hv => by
    rw [hp, update_of_ne hv]
  have hbegins : Begins adj n k o (s.hopcnt o) (s.route (index k o n)) := by
    rw [← hdo, ← hop_eq ho]
    exact h.search.sound o (hdo ▸ hlt)
  refine ⟨(hparent k (Ne.symm hne)).trans h.source, ?_, fun v hv hvk hno => ?_⟩
  · rw [hrouted]
    refine h.search.settle (weight_nonneg hadj) (fun hmem => hok hmem.2) (hdo ▸ hlt)
      (fun v hv => ?_) (fun v hv => ?_) fun v hv hvo => ?_
    · have hvk : v ≠ k := fun heq => hv ⟨heq ▸ hk, heq ▸ h.source⟩
      rw [hdo]
      by_cases hvn : v ∈ nodes n
      · rw [dist_eq hvn hvk]
        exact hmin v hvn fun hpar => hv ⟨hvn, hpar⟩
      · rw [dist_of_not_mem hvn hvk]
        exact hlt.le
    · have hvn : v ∈ nodes n := by
        rcases hv with hv | rfl
        · exact hv.1
        · exact ho
      have hvp : Function.update s.parent o k v = k := by
        by_cases hvo : v = o
        · rw [hvo, update_self]
        · rw [update_of_ne hvo]
          exact (hv.resolve_right hvo).2
      have hhv : t.hopcnt v = s.hopcnt v := by rw [hh, if_neg fun hc => hc.2.1 hvp]
      rw [hop_eq hvn, hop_eq hvn, hr v hvn, if_neg fun hc => hc.2.1 hvp]
      refine ⟨?_, rfl⟩
      unfold dist
      rw [hhv]
    · have hvk : v ≠ k := fun heq => hv ⟨heq ▸ hk, heq ▸ h.source⟩
      by_cases hvn : v ∈ nodes n
      · have hvp : Function.update s.parent o k v ≠ k := by
          rw [update_of_ne hvo]
          exact fun hpar => hv ⟨hvn, hpar⟩
        have hw : weight adj n o v = adj (index o v n) := if_pos ⟨ho, hvn⟩
        rw [dist_eq hvn hvk, hop_eq hvn, hh, hr v hvn]
        by_cases hlow : s.hopcnt o + adj (index o v n) < s.hopcnt v
        · rw [if_pos ⟨hvn, hvp, hlow⟩, if_pos ⟨hvn, hvp, hlow⟩]
          refine .lowered (by rw [hdo, hw]) ?_ fun hcap => ?_
          · rw [hdo, hw, dist_eq hvn hvk]
            exact hlow.le
          · have hpos : (0 : K) ≤ s.hopcnt o := hdo ▸ h.search.nonneg o
            have hlink := link_weight (hw ▸ (le_add_of_nonneg_left hpos).trans_lt hcap)
            rw [hw] at hlink
            exact hbegins.snoc hne hlink
        · rw [if_neg fun hc => hlow hc.2.2, if_neg fun hc => hlow hc.2.2]
          refine .kept (dist_eq hvn hvk).symm (hop_eq hvn).symm ?_
          rw [dist_eq hvn hvk, hdo, hw]
          exact le_of_not_gt hlow
      · rw [dist_of_not_mem hvn hvk, hop_of_not_mem hvn]
        refine .kept (dist_of_not_mem hvn hvk).symm (hop_of_not_mem hvn).symm ?_
        rw [dist_of_not_mem hvn hvk, weight, if_neg fun hc => hvn hc.2]
        exact le_add_of_nonneg_left (h.search.nonneg o)
  · obtain ⟨hinf, hzero⟩ := h.unreached v hv hvk hno
    have hlow : ¬s.hopcnt o + adj (index o v n) < s.hopcnt v := by
      intro hlow
      rw [hinf] at hlow
      have hpos : (0 : K) ≤ s.hopcnt o := hdo ▸ h.search.nonneg o
      have hadjv := (le_add_of_nonneg_left hpos).trans_lt hlow
      obtain ⟨c, hwalk⟩ := hbegins.walk
      exact hno _ (hwalk.snoc ⟨ho, hv, rfl, hadjv.ne⟩)
    rw [hh, hr v hv, if_neg fun hc => hlow hc.2.2, if_neg fun hc => hlow hc.2.2]
    exact ⟨hinf, hzero⟩

theorem not_mem_zero : 0 ∉ nodes n := fun h => (mem_nodes.1 h).1.ne rfl

theorem Scanned.extend (h : Scanned adj n k s) (hadj : Positive adj n) (hk : k ∈ nodes n) :
    Scanned adj n k (s.extend adj n k) ∧ (Done n k s → Done n k (s.extend adj n k)) ∧
      (Done n k (s.extend adj n k) ∨ routedCount n k s < routedCount n k (s.extend adj n k)) := by
  set t : RouteScan K := { s with hopcnt := Function.update s.hopcnt 0 (infinity K) } with ht
  have hne : ∀ v ∈ nodes n, v ≠ 0 := fun v hv h0 => not_mem_zero (h0 ▸ hv)
  have hhop : ∀ v ∈ nodes n, t.hopcnt v = s.hopcnt v := fun v hv => update_of_ne (hne v hv) _ _
  have hscan : Scanned adj n k t := h.congr hk (fun _ _ => rfl) hhop rfl
  have hextend : s.extend adj n k =
      if t.nearest n k = 0 then { t with parent := Function.update t.parent (t.nearest n k) k }
      else (nodes n).foldl (update adj n k (t.nearest n k))
        { t with parent := Function.update t.parent (t.nearest n k) k } := rfl
  rw [hextend]
  have hzero : t.hopcnt 0 = infinity K := by
    rw [ht]
    exact update_self 0 (infinity K) s.hopcnt
  rcases nearest_spec (n := n) (k := k) hzero with
    ⟨ho, hdone⟩ | ⟨ho, hpar, hlt, hmin⟩
  · have hsame : ∀ v ∈ nodes n, Function.update t.parent 0 k v = t.parent v := fun v hv =>
      update_of_ne (hne v hv) _ _
    have hdone' : Done n k { t with parent := Function.update t.parent 0 k } := fun v hv hvk =>
      hdone v hv (hsame v hv ▸ hvk)
    rw [if_pos ho, ho]
    exact ⟨hscan.congr hk hsame (fun _ _ => rfl) rfl, fun _ => hdone', .inl hdone'⟩
  · rw [if_neg (hne _ ho)]
    refine ⟨hscan.settle hadj hk ho hpar hlt hmin, fun hdone => ?_, .inr ?_⟩
    · exact absurd (hdone _ ho hpar) (not_le_of_gt (hhop _ ho ▸ hlt))
    · obtain ⟨hp, -⟩ := foldl_update _
        (s := { t with parent := Function.update t.parent (t.nearest n k) k }) (nodup_nodes n)
        (fun v hv => hv) (update_self _ k t.parent) ho
      unfold routedCount
      rw [hp]
      refine Finset.card_lt_card ⟨fun v hv => ?_, fun hsub => ?_⟩
      · rw [Finset.mem_filter] at hv ⊢
        refine ⟨hv.1, ?_⟩
        by_cases hvo : v = t.nearest n k
        · exact hvo ▸ update_self _ _ _
        · exact (update_of_ne hvo _ _).trans hv.2
      · have hmem := hsub (Finset.mem_filter.2 ⟨mem_toFinset.2 ho, update_self _ _ _⟩)
        exact hpar (Finset.mem_filter.1 hmem).2

/-- What is known of the row of `k` when its scan has ended. -/
structure Row (adj : ℕ → K) (n k : ℕ) (route : ℕ → ℕ) : Prop where
  near : ∀ v ∈ nodes n, v ≠ k → ∀ c, Walk (Link adj n) k v c → c < infinity K →
    ∃ x c', Link adj n k (route (index k v n)) x ∧
      Walk (Link adj n) (route (index k v n)) v c' ∧
        ∀ c'', Walk (Link adj n) k v c'' → x + c' ≤ c''
  unreached : ∀ v ∈ nodes n, v ≠ k → (∀ c, ¬Walk (Link adj n) k v c) → route (index k v n) = 0

/-- A distance is at most the cost of a walk below `INFINITY`. -/
theorem Scanned.dist_le (h : Scanned adj n k s) (hadj : Positive adj n) (hk : k ∈ nodes n)
    (hdone : Done n k s) {c : K} (hwalk : Walk (Link adj n) k v c) (hc : c < infinity K) :
    dist n k s v ≤ c := by
  have hfar : ∀ u ∉ Routed n k s, infinity K ≤ dist n k s u := by
    intro u hu
    have huk : u ≠ k := fun heq => hu ⟨heq ▸ hk, heq ▸ h.source⟩
    by_cases hun : u ∈ nodes n
    · rw [dist_eq hun huk]
      exact hdone u hun fun hpar => hu ⟨hun, hpar⟩
    · exact (dist_of_not_mem hun huk).ge
  have hweight : ∀ u v x, Link adj n u v x → weight adj n u v = x := fun u v x hl => by
    rw [weight, if_pos ⟨hl.1, hl.2.1⟩, hl.2.2.1]
  exact (h.search.le_of_walk (fun u v x hl _ => (hweight u v x hl).le)
    (fun u v x hl => hweight u v x hl ▸ weight_nonneg hadj u v) hfar hwalk hc).2

theorem Scanned.row (h : Scanned adj n k s) (hadj : Positive adj n) (hk : k ∈ nodes n)
    (hdone : Done n k s) :
    Row adj n k s.route := by
  refine ⟨fun v hv hvk c hwalk hc => ?_, fun v hv hvk hno => (h.unreached v hv hvk hno).2⟩
  have hdist := (h.dist_le hadj hk hdone hwalk hc).trans_lt hc
  obtain ⟨x, c', hlink, hrest, heq⟩ := (h.search.sound v hdist).resolve_left hvk
  rw [hop_eq hv] at hlink hrest
  refine ⟨x, c', hlink, hrest, fun c'' hw => ?_⟩
  rw [← heq]
  rcases lt_or_ge c'' (infinity K) with hlt | hge
  · exact h.dist_le hadj hk hdone hw hlt
  · exact hdist.le.trans hge

theorem foldl_extend (hadj : Positive adj n) (hk : k ∈ nodes n) (l : List ℕ)
    (h : Scanned adj n k s) :
    let t := l.foldl (fun s _ => s.extend adj n k) s
    Scanned adj n k t ∧ (Done n k s → Done n k t) ∧
      (Done n k t ∨ routedCount n k s + l.length ≤ routedCount n k t) := by
  induction l generalizing s with
  | nil => exact ⟨h, id, .inr le_rfl⟩
  | cons a l ih =>
    obtain ⟨hscan, hkeep, hnext⟩ := h.extend hadj hk
    obtain ⟨hend, hkeep', hmore⟩ := ih hscan
    refine ⟨hend, fun hdone => hkeep' (hkeep hdone), ?_⟩
    rcases hnext with hdone | hlt
    · exact .inl (hkeep' hdone)
    · refine hmore.imp_right fun hle => ?_
      rw [length_cons]
      exact le_trans (by omega) hle

/-- When the scan has ended, every node that can be reached has been routed. -/
theorem scan_spec (hadj : Positive adj n) (hk : k ∈ nodes n)
    (hrow : ∀ v ∈ nodes n, s.route (index k v n) = 0) :
    Scanned adj n k (scan adj n s k) ∧ Done n k (scan adj n s k) := by
  have hstart := Scanned.neighbours (s := { s with parent := id }) hadj hk rfl hrow
  obtain ⟨hscan, -, hend⟩ := foldl_extend hadj hk (nodes n) hstart
  refine ⟨hscan, hend.resolve_right fun hle => ?_⟩
  -- the source is routed before the first node is
  have hpos : 0 < routedCount n k ((nodes n).foldl (setNeighbour adj n k) { s with parent := id }) :=
    Finset.card_pos.2 ⟨k, Finset.mem_filter.2 ⟨mem_toFinset.2 hk, hstart.source⟩⟩
  have hlen : (nodes n).length = n - 1 := length_range'
  have := hle.trans routedCount_le
  omega

theorem scan_row (hadj : Positive adj n) (hk : k ∈ nodes n)
    (hrow : ∀ v ∈ nodes n, s.route (index k v n) = 0) : Row adj n k (scan adj n s k).route := by
  obtain ⟨hscan, hdone⟩ := scan_spec hadj hk hrow
  exact hscan.row hadj hk hdone

end Search

end RouteScan

end Ns2
