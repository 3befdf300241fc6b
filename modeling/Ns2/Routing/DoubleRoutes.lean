import Ns2.Lib.Double
import Ns2.Routing.StaticRoutes

/-! The routes of `RouteLogic` with costs that are `double`s: those of exact arithmetic, as long as the
costs of paths are not rounded. -/

namespace Ns2

open List

namespace RouteScan

/-- The distance of a node below `INFINITY` is the cost of a walk to it. -/
theorem Scanned.walk {R : Type*} [Ring R] [LinearOrder R] {t : RouteScan R} {a : ℕ → R} {n k o : ℕ}
    (h : Scanned a n k t) (ho : o ∈ nodes n) (hok : o ≠ k) (hlt : t.hopcnt o < infinity R) :
    Walk (Link a n) k o (t.hopcnt o) := by
  rw [← dist_eq ho hok] at hlt ⊢
  obtain ⟨x, c, hlink, hwalk, heq⟩ := (h.search.sound o hlt).resolve_left hok
  rw [heq]
  exact (Walk.single hlink).trans hwalk

variable {K R : Type*} [LinearOrder K] [Ring R] [LinearOrder R] {val : K → R}
  {adj : ℕ → K} {n k o w : ℕ} {s : RouteScan K} {t : RouteScan R} {l : List ℕ}

/-- A node is where exact arithmetic has it, or a neighbour over a link dearer than `INFINITY`. -/
def AgreeAt (val : K → R) (adj : ℕ → K) (n k : ℕ) (s : RouteScan K) (t : RouteScan R) (w : ℕ) :
    Prop :=
  (val (s.hopcnt w) = t.hopcnt w ∧ t.hopcnt w ≤ infinity R ∧
      s.route (index k w n) = t.route (index k w n)) ∨
    (infinity R < val (adj (index k w n)) ∧ infinity R ≤ val (s.hopcnt w) ∧
      infinity R ≤ t.hopcnt w)

/-- A scan and the one of exact arithmetic. -/
structure Agree (val : K → R) (adj : ℕ → K) (n k : ℕ) (s : RouteScan K) (t : RouteScan R) :
    Prop where
  source : s.parent k = k
  parent : s.parent = t.parent
  node : ∀ w ∈ nodes n, w ≠ k → AgreeAt val adj n k s t w

variable (hval : StrictMono val)
include hval

theorem Agree.nearest (h : Agree val adj n k s t) (hs : val (s.hopcnt 0) = t.hopcnt 0)
    (ht : t.hopcnt 0 = infinity R) : s.nearest n k = t.nearest n k := by
  have hfold : ∀ l : List ℕ, (∀ w ∈ l, w ∈ nodes n) → ∀ o, val (s.hopcnt o) = t.hopcnt o →
      t.hopcnt o ≤ infinity R →
      l.foldl (fun o w => if s.parent w ≠ k ∧ s.hopcnt w < s.hopcnt o then w else o) o =
        l.foldl (fun o w => if t.parent w ≠ k ∧ t.hopcnt w < t.hopcnt o then w else o) o := by
    intro l
    induction l with
    | nil => exact fun _ _ _ _ => rfl
    | cons w l ih =>
      intro hn o heq hle
      rw [forall_mem_cons] at hn
      rw [foldl_cons, foldl_cons, ← h.parent]
      by_cases hpar : s.parent w = k
      · rw [if_neg fun hc => hc.1 hpar, if_neg fun hc => hc.1 hpar]
        exact h.parent ▸ ih hn.2 o heq hle
      · rcases h.node w hn.1 fun hwk => hpar (hwk ▸ h.source) with ⟨hw, hwle, -⟩ | ⟨-, hw, hw'⟩
        · rw [← hw, ← heq]
          simp only [hval.lt_iff_lt]
          split_ifs
          · exact h.parent ▸ ih hn.2 w hw hwle
          · exact h.parent ▸ ih hn.2 o heq hle
        · have hlow : ¬s.hopcnt w < s.hopcnt o := fun hc =>
            absurd ((hw.trans_lt (hval hc)).trans_le (heq.trans_le hle)) (lt_irrefl _)
          rw [if_neg fun hc => hlow hc.2, if_neg fun hc => absurd (hc.2.trans_le hle) hw'.not_gt]
          exact h.parent ▸ ih hn.2 o heq hle
  exact hfold _ (fun _ hw => hw) 0 hs ht.le

section Relax

variable [Add K]

/-- The distances over a node that has been routed. -/
theorem Agree.relax (h : Agree val adj n k s t) (ho : o ∈ nodes n) (hok : o ≠ k)
    (hpar : s.parent o = k) (hlt : t.hopcnt o < infinity R)
    (hsum : ∀ w ∈ nodes n, val (s.hopcnt o + adj (index o w n)) =
        t.hopcnt o + val (adj (index o w n)) ∨
      infinity R ≤ val (s.hopcnt o + adj (index o w n)) ∧
        infinity R ≤ t.hopcnt o + val (adj (index o w n))) :
    Agree val adj n k ((nodes n).foldl (update adj n k o) s)
      ((nodes n).foldl (update (val ∘ adj) n k o) t) := by
  obtain ⟨hp, hh, hr⟩ := foldl_update adj (nodup_nodes n) (fun _ hw => hw) hpar ho
  obtain ⟨hp', hh', hr'⟩ := foldl_update (val ∘ adj) (nodup_nodes n) (fun _ hw => hw)
    (h.parent ▸ hpar) ho
  refine ⟨hp ▸ h.source, hp.trans (h.parent.trans hp'.symm), fun w hw hwk => ?_⟩
  have hroute : s.route (index k o n) = t.route (index k o n) := by
    rcases h.node o ho hok with ⟨-, -, heq⟩ | ⟨-, -, hge⟩
    · exact heq
    · exact absurd hlt hge.not_gt
  unfold AgreeAt
  rw [hh, hh', hr w hw, hr' w hw, ← h.parent]
  simp only [hw, true_and, Function.comp_apply]
  by_cases hwpar : s.parent w = k
  · simp only [hwpar, ne_eq, not_true_eq_false, false_and, if_false]
    exact h.node w hw hwk
  · simp only [ne_eq, hwpar, not_false_eq_true, true_and, ← hval.lt_iff_lt]
    rcases h.node w hw hwk with ⟨heq, hle, hsame⟩ | ⟨hdear, hge, hge'⟩
    · refine Or.inl ?_
      rcases hsum w hw with hexact | ⟨hfar, hfar'⟩
      · rw [hexact, heq]
        split_ifs with hlow
        · exact ⟨hexact, (hlow.trans_le hle).le, hroute⟩
        · exact ⟨heq, hle, hsame⟩
      · rw [if_neg fun hc => absurd (hc.trans_le (heq.trans_le hle)) hfar.not_gt,
          if_neg fun hc => absurd (hc.trans_le hle) hfar'.not_gt,
          if_neg fun hc => absurd (hc.trans_le (heq.trans_le hle)) hfar.not_gt,
          if_neg fun hc => absurd (hc.trans_le hle) hfar'.not_gt]
        exact ⟨heq, hle, hsame⟩
    · by_cases hnear : t.hopcnt o + val (adj (index o w n)) < infinity R
      · have hexact := (hsum w hw).resolve_right fun hfar => absurd hnear hfar.2.not_gt
        have hlow : val (s.hopcnt o + adj (index o w n)) < val (s.hopcnt w) :=
          (hexact.trans_lt hnear).trans_le hge
        rw [if_pos hlow, if_pos (hnear.trans_le hge'), if_pos hlow, if_pos (hnear.trans_le hge')]
        exact Or.inl ⟨hexact, hnear.le, hroute⟩
      · have hfar : infinity R ≤ val (s.hopcnt o + adj (index o w n)) := by
          rcases hsum w hw with hexact | hfar
          · exact hexact.symm ▸ le_of_not_gt hnear
          · exact hfar.1
        refine Or.inr ⟨hdear, ?_, ?_⟩
        · split_ifs
          · exact hfar
          · exact hge
        · split_ifs
          · exact le_of_not_gt hnear
          · exact hge'

end Relax

section Start

variable [NatCast K] (hinf : val (infinity K) = infinity R)
include hinf

theorem Agree.neighbours (hs : s.parent = id) (ht : t.parent = id)
    (hsrow : ∀ v ∈ nodes n, s.route (index k v n) = 0)
    (htrow : ∀ v ∈ nodes n, t.route (index k v n) = 0) :
    Agree val adj n k ((nodes n).foldl (setNeighbour adj n k) s)
      ((nodes n).foldl (setNeighbour (val ∘ adj) n k) t) := by
  obtain ⟨hp, hh, hr, -⟩ := foldl_setNeighbour adj (k := k) (s := s)
    fun v (hv : v ∈ nodes n) => hv
  obtain ⟨hp', hh', hr', -⟩ := foldl_setNeighbour (val ∘ adj) (k := k) (s := t)
    fun v (hv : v ∈ nodes n) => hv
  refine ⟨by rw [hp, hs, id], by rw [hp, hp', hs, ht], fun w hw hwk => ?_⟩
  have hne : adj (index k w n) ≠ infinity K ↔ val (adj (index k w n)) ≠ infinity R := by
    rw [← hinf, hval.injective.ne_iff]
  unfold AgreeAt
  rw [hh, hh', hr w hw, hr' w hw, hs, ht, hsrow w hw, htrow w hw]
  simp only [id, hw, hwk, hne, Function.comp_apply, ne_eq, not_false_eq_true, and_self, true_and,
    if_true, and_true]
  rcases le_or_gt (val (adj (index k w n))) (infinity R) with hle | hgt
  · exact Or.inl hle
  · exact Or.inr ⟨hgt, hgt.le⟩

end Start

section Scan

variable [Add K] [NatCast K] [IsStrictOrderedRing R]

/-- The sums that are stored are exact: those of a distance below `INFINITY` and the cost of a link. -/
def ExactSums (val : K → R) (adj : ℕ → K) (n k : ℕ) : Prop :=
  ∀ o ∈ nodes n, ∀ w ∈ nodes n, ∀ x, Walk (Link (val ∘ adj) n) k o (val x) → val x < infinity R →
    val (x + adj (index o w n)) = val x + val (adj (index o w n)) ∨
      adj (index o w n) = infinity K ∧ infinity R ≤ val (x + adj (index o w n))

variable (hinf : val (infinity K) = infinity R) (hk : k ∈ nodes n)
include hinf hk

theorem Agree.extend (h : Agree val adj n k s t) (hscan : Scanned (val ∘ adj) n k t)
    (hexact : ExactSums val adj n k) :
    Agree val adj n k (s.extend adj n k) (t.extend (val ∘ adj) n k) := by
  have hne : ∀ v ∈ nodes n, v ≠ 0 := fun v hv h0 => not_mem_zero (h0 ▸ hv)
  set s₀ : RouteScan K := { s with hopcnt := Function.update s.hopcnt 0 (infinity K) } with hs₀
  set t₀ : RouteScan R := { t with hopcnt := Function.update t.hopcnt 0 (infinity R) } with ht₀
  have hshop : ∀ v ∈ nodes n, s₀.hopcnt v = s.hopcnt v := fun v hv =>
    Function.update_of_ne (hne v hv) _ _
  have hthop : ∀ v ∈ nodes n, t₀.hopcnt v = t.hopcnt v := fun v hv =>
    Function.update_of_ne (hne v hv) _ _
  have hagree : Agree val adj n k s₀ t₀ := by
    refine ⟨h.source, h.parent, fun w hw hwk => ?_⟩
    unfold AgreeAt
    rw [hshop w hw, hthop w hw]
    exact h.node w hw hwk
  have hscan₀ : Scanned (val ∘ adj) n k t₀ := hscan.congr hk (fun _ _ => rfl) hthop rfl
  have hszero : s₀.hopcnt 0 = infinity K := Function.update_self 0 (infinity K) s.hopcnt
  have htzero : t₀.hopcnt 0 = infinity R := Function.update_self 0 (infinity R) t.hopcnt
  have hnear : s₀.nearest n k = t₀.nearest n k :=
    hagree.nearest hval (by rw [hszero, htzero, hinf]) htzero
  have hextend : s.extend adj n k =
      if s₀.nearest n k = 0 then { s₀ with parent := Function.update s₀.parent (s₀.nearest n k) k }
      else (nodes n).foldl (update adj n k (s₀.nearest n k))
        { s₀ with parent := Function.update s₀.parent (s₀.nearest n k) k } := rfl
  have hextend' : t.extend (val ∘ adj) n k =
      if t₀.nearest n k = 0 then { t₀ with parent := Function.update t₀.parent (t₀.nearest n k) k }
      else (nodes n).foldl (update (val ∘ adj) n k (t₀.nearest n k))
        { t₀ with parent := Function.update t₀.parent (t₀.nearest n k) k } := rfl
  have hrouted : ∀ o ≠ k, Agree val adj n k { s₀ with parent := Function.update s₀.parent o k }
      { t₀ with parent := Function.update t₀.parent o k } := fun o ho =>
    ⟨(Function.update_of_ne ho.symm _ _).trans hagree.source, by rw [hagree.parent], hagree.node⟩
  rw [hextend, hextend', hnear]
  rcases nearest_spec (n := n) (k := k) htzero with ⟨ho, -⟩ | ⟨ho, hpar, hlt, -⟩
  · rw [if_pos ho, if_pos ho, ho]
    exact hrouted 0 (hne k hk).symm
  · have hok : t₀.nearest n k ≠ k := fun heq => hpar (heq.symm ▸ hscan₀.source)
    rw [if_neg (hne _ ho), if_neg (hne _ ho)]
    set o := t₀.nearest n k
    have hwalk := hscan₀.walk ho hok hlt
    have hpos : 0 ≤ t₀.hopcnt o := by
      rw [← dist_eq ho hok]
      exact hscan₀.search.nonneg o
    have heq : val (s₀.hopcnt o) = t₀.hopcnt o := by
      rcases hagree.node o ho hok with ⟨heq, -, -⟩ | ⟨-, -, hge⟩
      · exact heq
      · exact absurd hlt hge.not_gt
    refine (hrouted o hok).relax hval ho hok (Function.update_self ..) hlt fun w hw => ?_
    change val (s₀.hopcnt o + _) = t₀.hopcnt o + _ ∨ infinity R ≤ val (s₀.hopcnt o + _) ∧ _
    rw [← heq] at hwalk hlt hpos ⊢
    refine (hexact o ho w hw _ hwalk hlt).imp_right fun hfar => ⟨hfar.2, ?_⟩
    rw [hfar.1, hinf]
    exact le_add_of_nonneg_left hpos

variable (hadj : Positive (val ∘ adj) n) (hexact : ExactSums val adj n k)
include hadj hexact

theorem Agree.foldl_extend (h : Agree val adj n k s t) (hscan : Scanned (val ∘ adj) n k t) :
    Agree val adj n k (l.foldl (fun s _ => s.extend adj n k) s)
      (l.foldl (fun s _ => s.extend (val ∘ adj) n k) t) := by
  induction l generalizing s t with
  | nil => exact h
  | cons a l ih => exact ih (h.extend hval hinf hk hscan hexact) (hscan.extend hadj hk).1

/-- The row of a source is one of exact arithmetic. -/
theorem row_of_exact (hrow : ∀ v ∈ nodes n, s.route (index k v n) = 0) :
    Row (val ∘ adj) n k (scan adj n s k).route := by
  let t : RouteScan R := ⟨id, fun _ => 0, fun _ => 0⟩
  obtain ⟨hscan, hdone⟩ := scan_spec (s := t) hadj hk fun _ _ => rfl
  have hagree : Agree val adj n k (scan adj n s k) (scan (val ∘ adj) n t k) :=
    (Agree.neighbours hval hinf (s := { s with parent := id }) (t := t) rfl rfl hrow
      fun _ _ => rfl).foldl_extend hval hinf hk hadj hexact
        (Scanned.neighbours hadj hk rfl fun _ _ => rfl)
  have hexactRow := hscan.row hadj hk hdone
  refine ⟨fun v hv hvk c hwalk hc => ?_, fun v hv hvk hno => ?_⟩
  · rcases hagree.node v hv hvk with ⟨-, -, heq⟩ | ⟨-, -, hge⟩
    · rw [heq]
      exact hexactRow.near v hv hvk c hwalk hc
    · have hle := hscan.dist_le hadj hk hdone hwalk hc
      rw [dist_eq hv hvk] at hle
      exact absurd (hle.trans_lt hc) hge.not_gt
  · rcases hagree.node v hv hvk with ⟨-, -, heq⟩ | ⟨hdear, -, -⟩
    · rw [heq]
      exact hexactRow.unreached v hv hvk hno
    · exact absurd (Walk.single ⟨hk, hv, rfl, hdear.ne'⟩) (hno _)

end Scan

end RouteScan

namespace RouteLogic

open RouteScan

/-- The costs of the links, as numbers. -/
def Cost (l : ℕ → ℕ → Option Double) (u v : ℕ) (x : ℚ) : Prop := ∃ y, l u v = some y ∧ y.val = x

/-- The cost of a path below `INFINITY` and of one more link is not rounded. -/
def Exact (l : ℕ → ℕ → Option Double) : Prop :=
  ∀ k u v c x, Walk (Cost l) k u c → c < infinity ℚ → Cost l u v x → Representable (c + x)

variable {s : RouteLogic Double} {l : ℕ → ℕ → Option Double} {k u v : ℕ} {c x : ℚ}

theorem val_infinity : (infinity Double).val = infinity ℚ := Double.val_natCast (by norm_num)

theorem Holds.cost_of (h : s.Holds l) (hlink : Link (Double.val ∘ s.adj) s.size u v x) :
    Cost l u v x := by
  obtain ⟨hu, hv, hx, hne⟩ := hlink
  rw [Function.comp_apply, h.adj u (mem_nodes.1 hu).2 v (mem_nodes.1 hv).2] at hx
  cases hl : l u v with
  | none =>
    rw [hl, Option.getD_none, val_infinity] at hx
    exact absurd hx.symm hne
  | some y =>
    rw [hl, Option.getD_some] at hx
    exact ⟨y, hl, hx⟩

theorem Holds.cost_pos (h : s.Holds l) (hcost : Cost l u v x) : 0 < x := by
  obtain ⟨y, hl, rfl⟩ := hcost
  exact Double.val_strictMono (h.valid u v y hl).2.2

theorem Holds.positive (h : s.Holds l) : Positive (Double.val ∘ s.adj) s.size := by
  intro u hu v hv
  rw [Function.comp_apply, h.adj u (mem_nodes.1 hu).2 v (mem_nodes.1 hv).2]
  cases hl : l u v with
  | none => exact val_infinity ▸ infinity_pos
  | some y => exact h.cost_pos ⟨y, hl, rfl⟩

theorem Holds.walk_nonneg (h : s.Holds l) (hwalk : Walk (Cost l) u v c) : 0 ≤ c := by
  induction hwalk with
  | nil => exact le_rfl
  | snoc hwalk hlink ih => exact add_nonneg ih (h.cost_pos hlink).le

theorem Holds.walk (h : s.Holds l) (hwalk : Walk (Cost l) u v c) (hc : c < infinity ℚ) :
    Walk (Link (Double.val ∘ s.adj) s.size) u v c := by
  induction hwalk with
  | nil => exact Walk.nil
  | @snoc v w c x hwalk hlink ih =>
    have hx := h.cost_pos hlink
    have hxc := (le_add_of_nonneg_left (h.walk_nonneg hwalk)).trans_lt hc
    obtain ⟨y, hl, hyx⟩ := hlink
    obtain ⟨hv, hw, -⟩ := h.valid v w y hl
    obtain ⟨hvs, hws⟩ := h.bound v w (hl ▸ rfl)
    refine (ih ((le_add_of_nonneg_right hx.le).trans_lt hc)).snoc
      ⟨mem_nodes.2 ⟨hv, hvs⟩, mem_nodes.2 ⟨hw, hws⟩, ?_, hxc.ne⟩
    rw [Function.comp_apply, h.adj v hvs w hws, hl, Option.getD_some, hyx]

theorem Holds.exactSums (h : s.Holds l) (hexact : Exact l) : ExactSums Double.val s.adj s.size k := by
  intro o ho w hw x hwalk hlt
  have hwalk' : Walk (Cost l) k o x.val := hwalk.mono fun u v x => h.cost_of
  have hadj := h.adj o (mem_nodes.1 ho).2 w (mem_nodes.1 hw).2
  cases hl : l o w with
  | none =>
    rw [hl, Option.getD_none] at hadj
    refine Or.inr ⟨hadj, ?_⟩
    have hsum : (x + s.adj (index o w s.size)).val = roundDouble (x.val + infinity ℚ) := by
      rw [hadj, ← val_infinity]
      rfl
    rw [hsum]
    refine natCast_le_roundDouble (le_add_of_nonneg_left (h.walk_nonneg hwalk')) ?_
    refine (add_lt_add_left hlt _).trans ?_
    norm_num [infinity]
  | some y =>
    rw [hl, Option.getD_some] at hadj
    rw [hadj]
    exact Or.inl (Double.val_add (hexact k o w _ _ hwalk' hlt ⟨y, hl, rfl⟩))

variable {os : List (RouteOp Double)}

/-- Static routes lead along shortest paths, and there is none where there is no path. -/
theorem computeRoutes_shortest (ho : ∀ o ∈ os, Valid o) (hexact : Exact (links os)) {as : List Unit}
    (hrun : (machine Double).run init os = some (s, as)) (hopcnt : ℕ → Double) {k d : ℕ}
    (hk : 0 < k) (hks : k < s.size) (hd : 0 < d) (hds : d < s.size) :
    ((∃ c, Walk (Cost (links os)) k d c ∧ c < infinity ℚ) →
      ∃ c, Trail (Cost (links os)) (fun u => (s.computeRoutes hopcnt).nextHop u d) d k c ∧
        ∀ c', Walk (Cost (links os)) k d c' → c ≤ c') ∧
      ((∀ c, ¬Walk (Cost (links os)) k d c) → (s.computeRoutes hopcnt).nextHop k d = 0) := by
  have h : s.Holds (links os) := holds_init.run ho hrun
  have hk' : k ∈ nodes s.size := mem_nodes.2 ⟨hk, hks⟩
  have hd' : d ∈ nodes s.size := mem_nodes.2 ⟨hd, hds⟩
  have hrow : ∀ k ∈ nodes s.size, Row (Double.val ∘ s.adj) s.size k (routes s.adj s.size hopcnt) :=
    fun k hk => routes_spec (fun k hk _ hs => row_of_exact Double.val_strictMono val_infinity hk
      h.positive (h.exactSums hexact) hs) hopcnt hk
  refine ⟨fun ⟨c, hwalk, hc⟩ => ?_, fun hno => ?_⟩
  · obtain ⟨e, htrail, hcheap⟩ := trail_of_rows h.positive hrow hk' hd' (h.walk hwalk hc) hc
    refine ⟨e, htrail.mono fun u v x => h.cost_of, fun c' hw => ?_⟩
    rcases lt_or_ge c' (infinity ℚ) with hlt | hge
    · exact hcheap.2 c' (h.walk hw hlt)
    · exact ((hcheap.2 c (h.walk hwalk hc)).trans hc.le).trans hge
  · have hkd : d ≠ k := fun heq => hno 0 (heq ▸ Walk.nil)
    exact (hrow k hk').unreached d hd' hkd fun c hw => hno c (hw.mono fun u v x => h.cost_of)

/-- Whole numbers are added without rounding. -/
theorem exact_of_natCast (h : ∀ u v y, RouteOp.insert u v y ∈ os → ∃ n : ℕ, n ≤ 2 ^ 52 ∧ y = n) :
    Exact (links os) := by
  have hmem : ∀ (u v : ℕ) (os : List (RouteOp Double)) (x : Option Double) y,
      os.foldl (link u v) x = some y → x = some y ∨ ∃ u v, RouteOp.insert u v y ∈ os := by
    intro u v os
    induction os with
    | nil => exact fun x y h => Or.inl h
    | cons o os ih =>
      intro x y h
      rcases ih _ y h with hlink | ⟨u', v', hin⟩
      · cases o with
        | insert src dst cost =>
          simp only [link] at hlink
          split_ifs at hlink
          · exact Or.inr ⟨src, dst, Option.some.inj hlink ▸ mem_cons_self⟩
          · exact Or.inl hlink
        | reset src dst =>
          simp only [link] at hlink
          split_ifs at hlink
          exact Or.inl hlink
      · exact Or.inr ⟨u', v', mem_cons_of_mem _ hin⟩
  have hcost : ∀ u v x, Cost (links os) u v x → ∃ n : ℕ, n ≤ 2 ^ 52 ∧ x = n := by
    rintro u v x ⟨y, hl, rfl⟩
    rcases hmem u v os none y hl with hnone | ⟨u', v', hin⟩
    · exact nomatch hnone
    · obtain ⟨n, hn, rfl⟩ := h u' v' y hin
      exact ⟨n, hn, Double.val_natCast (hn.trans (by norm_num))⟩
  have hwalk : ∀ k u c, Walk (Cost (links os)) k u c → ∃ n : ℕ, c = n := by
    intro k u c hw
    induction hw with
    | nil => exact ⟨0, by simp⟩
    | snoc _ hlink ih =>
      obtain ⟨n, rfl⟩ := ih
      obtain ⟨m, -, rfl⟩ := hcost _ _ _ hlink
      exact ⟨n + m, by push_cast; rfl⟩
  intro k u v c x hw hc hx
  obtain ⟨n, rfl⟩ := hwalk k u c hw
  obtain ⟨m, hm, rfl⟩ := hcost u v x hx
  have hn : n < 0x3fff := by
    rw [infinity] at hc
    exact_mod_cast hc
  exact_mod_cast representable_natCast (n := n + m) (by omega)

/-- A detour over two links is cheaper than the link there is, and a link is taken away. -/
def detour : List (RouteOp Double) :=
  [.insert 1 2 (1 : ℕ), .insert 2 3 (1 : ℕ), .insert 1 3 (5 : ℕ), .insert 1 4 (1 : ℕ),
    .insert 4 3 (2 : ℕ), .reset 4 3]

theorem computeRoutes_shortest_detour :
    ∃ s as, (machine Double).run init detour = some (s, as) ∧
      ∃ c, Trail (Cost (links detour)) (fun u => (s.computeRoutes fun _ => 0).nextHop u 3) 3 1 c ∧
        ∀ c', Walk (Cost (links detour)) 1 3 c' → c ≤ c' := by
  have hsize : ((machine Double).run init detour).map (fun q => q.1.size) = some 16 := by rfl
  obtain ⟨q, hrun, hq⟩ := Option.map_eq_some_iff.1 hsize
  have hvalid : ∀ o ∈ detour, Valid o := by
    intro o ho
    simp only [detour, mem_cons, not_mem_nil, or_false] at ho
    rcases ho with rfl | rfl | rfl | rfl | rfl | rfl
    all_goals simp only [Valid, Nat.zero_lt_succ, true_and, and_self]
    all_goals exact Double.natCast_pos (by decide) (by decide)
  have hexact : Exact (links detour) := exact_of_natCast fun u v y hin => by
    unfold detour at hin
    grind
  have hwalk : Walk (Cost (links detour)) 1 3 (0 + 1 + 1) := by
    have hone : ((1 : ℕ) : Double).val = 1 := by rw [Double.val_natCast (by norm_num), Nat.cast_one]
    exact (Walk.nil.snoc (v := 2) ⟨(1 : ℕ), rfl, hone⟩).snoc ⟨(1 : ℕ), rfl, hone⟩
  exact ⟨q.1, q.2, hrun, (computeRoutes_shortest hvalid hexact hrun (fun _ => 0) (by decide)
    (by omega) (by decide) (by omega)).1 ⟨_, hwalk, by norm_num [infinity]⟩⟩

/-- The cost of a path below `INFINITY` that is rounded up to it. -/
def nearly : List (RouteOp Double) :=
  [.insert 1 2 (16382 : ℕ), .insert 2 3 ⟨1 - 1 / 2 ^ 53, 2 ^ 53 - 1, -53, by norm_num⟩]

set_option maxRecDepth 100000 in
theorem not_computeRoutes_shortest : ¬∀ (os : List (RouteOp Double)) (s : RouteLogic Double)
    (as : List Unit) (hopcnt : ℕ → Double) (k d : ℕ), (∀ o ∈ os, Valid o) →
    (machine Double).run init os = some (s, as) → 0 < k → k < s.size → 0 < d → d < s.size →
    (∃ c, Walk (Cost (links os)) k d c ∧ c < infinity ℚ) →
      ∃ c, Trail (Cost (links os)) (fun u => (s.computeRoutes hopcnt).nextHop u d) d k c ∧
        ∀ c', Walk (Cost (links os)) k d c' → c ≤ c' := by
  intro h
  have hend : ((machine Double).run init nearly).map
      (fun q => (q.1.size, (q.1.computeRoutes fun _ => 0).nextHop 1 3)) = some (16, 0) := by
    decide +kernel
  obtain ⟨q, hrun, hq⟩ := Option.map_eq_some_iff.1 hend
  obtain ⟨hsize, hnext⟩ := Prod.mk.inj hq
  have hvalid : ∀ o ∈ nearly, Valid o := by
    intro o ho
    simp only [nearly, mem_cons, not_mem_nil, or_false] at ho
    rcases ho with rfl | rfl
    · exact ⟨by decide, by decide, Double.natCast_pos (by decide) (by norm_num)⟩
    · refine ⟨by decide, by decide, Double.val_strictMono.lt_iff_lt.1 ?_⟩
      rw [Double.val_zero]
      norm_num
  have hwalk : Walk (Cost (links nearly)) 1 3 (0 + 16382 + (1 - 1 / 2 ^ 53)) :=
    (Walk.nil.snoc (v := 2) ⟨_, rfl, by exact_mod_cast Double.val_natCast (by norm_num)⟩).snoc
      ⟨_, rfl, rfl⟩
  obtain ⟨c, htrail, -⟩ := h nearly q.1 q.2 (fun _ => 0) 1 3 hvalid hrun (by decide) (by omega)
    (by decide) (by omega) ⟨_, hwalk, by norm_num [infinity]⟩
  cases htrail with
  | hop hlink _ =>
    rw [hnext] at hlink
    obtain ⟨y, hnone, -⟩ := hlink
    cases hnone

end RouteLogic

end Ns2
