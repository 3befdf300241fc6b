import Ns2.Routing.RouteScan

/-! The routes of `RouteLogic`: hop by hop they lead along a shortest path, though every source has
computed its own. -/

namespace Ns2

open List

namespace RouteScan

theorem not_inRow {n k k' v : ℕ} (hv : v ∈ nodes n) (hne : k ≠ k') : ¬InRow n k' (index k v n) := by
  rintro ⟨w, hw, heq⟩
  exact hne ((index_inj (mem_nodes.1 hv).2 (mem_nodes.1 hw).2).1 heq).1

variable {K : Type*} [Ring K] [LinearOrder K] {adj : ℕ → K} {n k t : ℕ} {route route' : ℕ → ℕ}
  {l : List ℕ}

theorem foldl_diagonal (hn : ∀ k ∈ l, k ∈ nodes n) {u v : ℕ} (hv : v ∈ nodes n) :
    l.foldl (fun route k => Function.update route (index k k n) k) route (index u v n) =
      if u = v ∧ u ∈ l then u else route (index u v n) := by
  induction l generalizing route with
  | nil => simp
  | cons a l ih =>
    rw [forall_mem_cons] at hn
    rw [foldl_cons, ih hn.2, Function.update_apply]
    simp only [index_inj (mem_nodes.1 hv).2 (mem_nodes.1 hn.1).2]
    grind

theorem Row.congr (h : Row adj n k route)
    (heq : ∀ v ∈ nodes n, v ≠ k → route' (index k v n) = route (index k v n)) :
    Row adj n k route' := by
  refine ⟨fun v hv hvk => ?_, fun v hv hvk => ?_⟩
  · rw [heq v hv hvk]
    exact h.near v hv hvk
  · rw [heq v hv hvk]
    exact h.unreached v hv hvk

/-- A walk to `t` that no other one is cheaper than. -/
def Cheapest (adj : ℕ → K) (n t u : ℕ) (c : K) : Prop :=
  Walk (Link adj n) u t c ∧ ∀ c', Walk (Link adj n) u t c' → c ≤ c'

theorem Cheapest.unique {u : ℕ} {c c' : K} (h : Cheapest adj n t u c)
    (h' : Cheapest adj n t u c') : c = c' := le_antisymm (h.2 c' h'.1) (h'.2 c h.1)

section Routes

variable {C : Type*} [LinearOrder C] [Add C] [NatCast C] {cost : ℕ → C} {s : RouteScan C}

/-- The scans of all sources, when each leaves the row of its source. -/
theorem foldl_scan (hscan : ∀ k ∈ nodes n, ∀ s : RouteScan C,
      (∀ v ∈ nodes n, s.route (index k v n) = 0) → Row adj n k (scan cost n s k).route)
    (hl : l.Nodup) (hn : ∀ k ∈ l, k ∈ nodes n)
    (hrow : ∀ k ∈ l, ∀ v ∈ nodes n, s.route (index k v n) = 0) :
    (∀ k ∈ l, Row adj n k (l.foldl (scan cost n) s).route) ∧
      ∀ i, (∀ k ∈ l, ¬InRow n k i) → (l.foldl (scan cost n) s).route i = s.route i := by
  induction l generalizing s with
  | nil => simp
  | cons a l ih =>
    rw [nodup_cons] at hl
    rw [forall_mem_cons] at hn hrow
    have hne : ∀ k ∈ l, k ≠ a := fun k hk heq => hl.1 (heq ▸ hk)
    obtain ⟨hrest, hframe⟩ := ih (s := scan cost n s a) hl.2 hn.2 fun k hk v hv => by
      rw [scan_frame (not_inRow hv (hne k hk)), hrow.2 k hk v hv]
    rw [foldl_cons, forall_mem_cons]
    refine ⟨⟨(hscan a hn.1 s hrow.1).congr fun v hv _ => ?_, hrest⟩, fun i hi => ?_⟩
    · exact hframe _ fun k hk => not_inRow hv (hne k hk).symm
    · rw [forall_mem_cons] at hi
      rw [hframe i hi.2, scan_frame hi.1]

theorem routes_spec (hscan : ∀ k ∈ nodes n, ∀ s : RouteScan C,
      (∀ v ∈ nodes n, s.route (index k v n) = 0) → Row adj n k (scan cost n s k).route)
    (hopcnt : ℕ → C) (hk : k ∈ nodes n) :
    Row adj n k (routes cost n hopcnt) := by
  obtain ⟨hrows, -⟩ := foldl_scan (s := ⟨id, hopcnt, fun _ => 0⟩) hscan (nodup_nodes n)
    (fun _ h => h) fun _ _ _ _ => rfl
  unfold routes
  refine (hrows k hk).congr fun v hv hvk => ?_
  rw [foldl_diagonal (fun _ h => h) hv, if_neg fun h => hvk h.1.symm]

end Routes

variable [IsStrictOrderedRing K]

theorem walk_nonneg (hadj : Positive adj n) {u v : ℕ} {c : K} (h : Walk (Link adj n) u v c) :
    0 ≤ c := by
  induction h with
  | nil => exact le_rfl
  | snoc hwalk hlink ih => exact add_nonneg ih (hlink.2.2.1 ▸ (hadj _ hlink.1 _ hlink.2.1).le)

theorem cheapest_self (hadj : Positive adj n) : Cheapest adj n t t 0 :=
  ⟨Walk.nil, fun _ h => walk_nonneg hadj h⟩

/-- Rows of different sources fit together: the next hop of the next hop goes on along a cheapest
walk. -/
theorem Row.cheapest (h : Row adj n k route) (hadj : Positive adj n) (ht : t ∈ nodes n)
    (hkt : t ≠ k) {c : K} (hwalk : Walk (Link adj n) k t c) (hc : c < infinity K) :
    ∃ x d, 0 < x ∧ Link adj n k (route (index k t n)) x ∧
      Cheapest adj n t (route (index k t n)) d ∧ Cheapest adj n t k (x + d) := by
  obtain ⟨x, d, hlink, hrest, hmin⟩ := h.near t ht hkt c hwalk hc
  refine ⟨x, d, hlink.2.2.1 ▸ hadj _ hlink.1 _ hlink.2.1, hlink, ⟨hrest, fun c' hw => ?_⟩,
    (Walk.single hlink).trans hrest, hmin⟩
  exact le_of_add_le_add_left (hmin _ ((Walk.single hlink).trans hw))

theorem trail_of_rows (hadj : Positive adj n) (hrow : ∀ k ∈ nodes n, Row adj n k route)
    (hk : k ∈ nodes n) (ht : t ∈ nodes n) {c : K} (hwalk : Walk (Link adj n) k t c)
    (hc : c < infinity K) :
    ∃ d, Trail (Link adj n) (fun u => route (index u t n)) t k d ∧ Cheapest adj n t k d := by
  classical
  -- the potential is the cost of a cheapest walk
  let d : ℕ → K := fun u => if h : ∃ c, Cheapest adj n t u c then h.choose else 0
  have hd : ∀ {u c}, Cheapest adj n t u c → d u = c := by
    intro u c h
    have hex : ∃ c, Cheapest adj n t u c := ⟨c, h⟩
    have hdu : d u = hex.choose := dif_pos hex
    rw [hdu]
    exact hex.choose_spec.unique h
  let N := (nodes n).toFinset.filter fun u => ∃ c, Walk (Link adj n) u t c ∧ c < infinity K
  have hN : ∀ {u}, u ∈ N ↔ u ∈ nodes n ∧ ∃ c, Walk (Link adj n) u t c ∧ c < infinity K := by
    intro u
    rw [Finset.mem_filter, mem_toFinset]
  have htrail : Trail (Link adj n) (fun u => route (index u t n)) t k (d k) :=
    Trail.of_potential N (hd (cheapest_self hadj)) (fun u hu hut => ?_) (hN.2 ⟨hk, c, hwalk, hc⟩)
  · refine ⟨d k, htrail, ?_⟩
    by_cases hkt : k = t
    · subst hkt
      rw [hd (cheapest_self hadj)]
      exact cheapest_self hadj
    · obtain ⟨x, e, -, -, -, hcheap⟩ := (hrow k hk).cheapest hadj ht (Ne.symm hkt) hwalk hc
      rw [hd hcheap]
      exact hcheap
  · obtain ⟨hun, c', hwalk', hc'⟩ := hN.1 hu
    obtain ⟨x, e, hx, hlink, hnext, hcheap⟩ :=
      (hrow u hun).cheapest hadj ht (Ne.symm hut) hwalk' hc'
    refine ⟨x, hx, hlink, hN.2 ⟨hlink.2.1, e, hnext.1, ?_⟩, ?_⟩
    · exact (lt_add_of_pos_left e hx).trans_le (hcheap.2 c' hwalk') |>.trans hc'
    · rw [hd hcheap, hd hnext]

end RouteScan

namespace RouteLogic

open RouteScan

section Copy

variable {K : Type*} {old adj : ℕ → K} {osize m u v : ℕ} {l : List ℕ}

theorem copyRow_eq {i : ℕ} (hl : ∀ j ∈ l, j < m) (hv : v < m) :
    l.foldl (fun adj j => Function.update adj (index i j m) (old (index i j osize))) adj
        (index u v m) =
      if u = i ∧ v ∈ l then old (index u v osize) else adj (index u v m) := by
  induction l generalizing adj with
  | nil => simp
  | cons j l ih =>
    rw [forall_mem_cons] at hl
    rw [foldl_cons, ih hl.2, Function.update_apply]
    simp only [index_inj hv hl.1]
    grind

theorem copyRows_eq (hsize : osize ≤ m) (hv : v < m) :
    l.foldl (fun adj i => (range osize).foldl (fun adj j =>
        Function.update adj (index i j m) (old (index i j osize))) adj) adj (index u v m) =
      if u ∈ l ∧ v < osize then old (index u v osize) else adj (index u v m) := by
  induction l generalizing adj with
  | nil => simp
  | cons i l ih =>
    rw [foldl_cons, ih, copyRow_eq (fun j hj => (mem_range.1 hj).trans_le hsize) hv]
    simp only [mem_range, mem_cons]
    grind

end Copy

variable {K : Type*} {n m u v src dst : ℕ} {os : List (RouteOp K)}

/-- The link from `u` to `v` after an operation, if there is one. -/
def link (u v : ℕ) (x : Option K) : RouteOp K → Option K
  | .insert src dst cost => if src = u ∧ dst = v then some cost else x
  | .reset src dst => if src = u ∧ dst = v then none else x

/-- The links that a sequence of operations leaves, with their costs. -/
def links (os : List (RouteOp K)) (u v : ℕ) : Option K := os.foldl (link u v) none

/-- Node numbers and costs are positive. -/
def Valid [Zero K] [LinearOrder K] : RouteOp K → Prop
  | .insert src dst cost => 0 < src ∧ 0 < dst ∧ 0 < cost
  | .reset src dst => 0 < src ∧ 0 < dst

variable [LinearOrder K] [Zero K] [NatCast K] {s s' : RouteLogic K}

/-- The matrix holds the links. -/
structure Holds (s : RouteLogic K) (l : ℕ → ℕ → Option K) : Prop where
  adj : ∀ u < s.size, ∀ v < s.size, s.adj (index u v s.size) = (l u v).getD (infinity K)
  bound : ∀ u v, (l u v).isSome → u < s.size ∧ v < s.size
  valid : ∀ u v x, l u v = some x → 0 < u ∧ 0 < v ∧ 0 < x

theorem lt_doubled (fuel : ℕ) (hm : 0 < m) (h : n < m + fuel) : n < doubled n fuel m := by
  induction fuel generalizing m with
  | zero => exact h
  | succ fuel ih =>
    unfold doubled
    split_ifs with hle
    · rw [Nat.shiftLeft_eq]
      exact ih (by omega) (by omega)
    · omega

theorem le_doubled (fuel : ℕ) (n m : ℕ) : m ≤ doubled n fuel m := by
  induction fuel generalizing m with
  | zero => exact le_rfl
  | succ fuel ih =>
    unfold doubled
    split_ifs
    · rw [Nat.shiftLeft_eq]
      exact le_trans (by omega) (ih _)
    · exact le_rfl

theorem Holds.check {l : ℕ → ℕ → Option K} (h : s.Holds l) (hs : s.check n = some s') :
    s'.Holds l ∧ n < s'.size ∧ s.size ≤ s'.size := by
  unfold RouteLogic.check at hs
  by_cases hn : n < s.size
  · rw [if_pos hn] at hs
    cases hs
    exact ⟨h, hn, le_rfl⟩
  · rw [if_neg hn] at hs
    set m := doubled n (n + 1) (if s.size = 0 then 16 else s.size) with hm
    have hstart : s.size ≤ if s.size = 0 then 16 else s.size := by split_ifs <;> omega
    have hsize : s.size ≤ m := hstart.trans (le_doubled _ _ _)
    have hlt : n < m := lt_doubled _ (by split_ifs <;> omega) (by omega)
    obtain ⟨t, ht, rfl⟩ := Option.map_eq_some_iff.1 hs
    rw [alloc] at ht
    split_ifs at ht
    cases ht
    refine ⟨⟨fun u hu v hv => ?_, fun u v huv => ?_, h.valid⟩, hlt, hsize⟩
    · change copy s.adj s.size m (fun _ => infinity K) (index u v m) = _
      rw [copy, copyRows_eq hsize hv]
      simp only [mem_range]
      split_ifs with hold
      · exact h.adj u hold.1 v hold.2
      · cases hl : l u v with
        | none => rfl
        | some x => exact absurd (h.bound u v (hl ▸ rfl)) hold
    · obtain ⟨hu, hv⟩ := h.bound u v huv
      exact ⟨hu.trans_le hsize, hv.trans_le hsize⟩

theorem Holds.write {l : ℕ → ℕ → Option K} (h : s.Holds l) (hsrc : src < s.size)
    (hdst : dst < s.size) {x : Option K} (hx : ∀ y, x = some y → 0 < src ∧ 0 < dst ∧ 0 < y) :
    Holds { s with adj := Function.update s.adj (index src dst s.size) (x.getD (infinity K)) }
      fun u v => if src = u ∧ dst = v then x else l u v := by
  refine ⟨fun u hu v hv => ?_, fun u v huv => ?_, fun u v y huv => ?_⟩
  · dsimp only at hu hv ⊢
    rw [Function.update_apply]
    simp only [index_inj hv hdst]
    split_ifs with h₁ h₂ h₂
    · rfl
    · exact absurd ⟨h₁.1.symm, h₁.2.symm⟩ h₂
    · exact absurd ⟨h₂.1.symm, h₂.2.symm⟩ h₁
    · exact h.adj u hu v hv
  · split_ifs at huv with heq
    · exact ⟨heq.1 ▸ hsrc, heq.2 ▸ hdst⟩
    · exact h.bound u v huv
  · split_ifs at huv with heq
    · exact heq.1 ▸ heq.2 ▸ hx y huv
    · exact h.valid u v y huv

theorem holds_init : (init : RouteLogic K).Holds fun _ _ => none :=
  ⟨fun _ hu => absurd hu (Nat.not_lt_zero _), fun _ _ h => absurd h Bool.false_ne_true,
    fun _ _ _ h => nomatch h⟩

variable [Add K]

theorem Holds.step {l : ℕ → ℕ → Option K} (h : s.Holds l) {o : RouteOp K} (ho : Valid o)
    {a : Unit} (hstep : (machine K).step s o = some (s', a)) :
    s'.Holds fun u v => link u v (l u v) o := by
  cases o with
  | insert src dst cost =>
    obtain ⟨t, ht, heq⟩ := Option.map_eq_some_iff.1 hstep
    obtain ⟨rfl, -⟩ := Prod.mk.inj heq
    obtain ⟨s₁, hs₁, ht⟩ := Option.bind_eq_some_iff.1 ht
    obtain ⟨s₂, hs₂, ht⟩ := Option.bind_eq_some_iff.1 ht
    cases ht
    obtain ⟨h₁, hsrc, -⟩ := h.check hs₁
    obtain ⟨h₂, hdst, hle⟩ := h₁.check hs₂
    exact h₂.write (x := some cost) (hsrc.trans_le hle) hdst
      fun y hy => Option.some.inj hy ▸ ho
  | reset src dst =>
    simp only [machine, reset] at hstep
    split_ifs at hstep with hlt
    · obtain ⟨rfl, -⟩ := Prod.mk.inj (Option.some.inj hstep)
      exact h.write (x := none) hlt.1 hlt.2 fun y hy => nomatch hy
    · exact nomatch hstep

theorem Holds.run {l : ℕ → ℕ → Option K} (h : s.Holds l) (ho : ∀ o ∈ os, Valid o) {as : List Unit}
    (hrun : (machine K).run s os = some (s', as)) :
    s'.Holds fun u v => os.foldl (link u v) (l u v) := by
  induction os generalizing s l as with
  | nil =>
    obtain ⟨rfl, -⟩ := Prod.mk.inj (Option.some.inj hrun)
    exact h
  | cons o os ih =>
    rw [forall_mem_cons] at ho
    cases hstep : (machine K).step s o with
    | none => simp [Machine.run, hstep] at hrun
    | some r =>
      rw [Machine.run_cons _ os hstep] at hrun
      obtain ⟨q, hq, heq⟩ := Option.map_eq_some_iff.1 hrun
      obtain ⟨rfl, -⟩ := Prod.mk.inj heq
      exact ih (h.step ho.1 hstep) ho.2 hq

end RouteLogic

end Ns2
