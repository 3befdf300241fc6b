import Ns2.Lib.ShortestPath

/-! The first hops of all shortest walks from a source: what a search keeps that settles one hop of
a nearest node at a time. -/

namespace Ns2

open List

variable {V R L : Type*}

section Walk

variable [AddCommMonoid R] {link : V → V → R → Prop} {k u v h : V} {c x : R}

/-- A walk of cost `c` starts with the link to `h`. -/
def FirstHop (link : V → V → R → Prop) (k v : V) (c : R) (h : V) : Prop :=
  ∃ x y, link k h x ∧ Walk link h v y ∧ x + y = c

/-- No walk costs less than `c`, and one costs that. -/
def IsDist [LE R] (link : V → V → R → Prop) (k v : V) (c : R) : Prop :=
  Walk link k v c ∧ ∀ c', Walk link k v c' → c ≤ c'

theorem FirstHop.walk (hh : FirstHop link k v c h) : Walk link k v c := by
  obtain ⟨x, y, hx, hy, rfl⟩ := hh
  exact (Walk.single hx).trans hy

theorem FirstHop.single (hx : link k v x) : FirstHop link k v x v :=
  ⟨x, 0, hx, Walk.nil, add_zero x⟩

theorem FirstHop.snoc (hh : FirstHop link k u c h) (hx : link u v x) :
    FirstHop link k v (c + x) h := by
  obtain ⟨a, y, ha, hy, rfl⟩ := hh
  exact ⟨a, y + x, ha, hy.snoc hx, (add_assoc a y x).symm⟩

theorem Walk.firstHop (hw : Walk link k v c) : v = k ∧ c = 0 ∨ ∃ h, FirstHop link k v c h := by
  induction hw with
  | nil => exact Or.inl ⟨rfl, rfl⟩
  | @snoc u v c x hwalk hlink ih =>
    rcases ih with ⟨rfl, rfl⟩ | ⟨h, hh⟩
    · rw [zero_add]
      exact Or.inr ⟨v, FirstHop.single hlink⟩
    · exact Or.inr ⟨h, hh.snoc hlink⟩

variable [LinearOrder R] [IsOrderedCancelAddMonoid R]

theorem Walk.nonneg (hpos : ∀ u v x, link u v x → 0 < x) (hw : Walk link k v c) : 0 ≤ c := by
  induction hw with
  | nil => exact le_rfl
  | snoc hwalk hlink ih => exact add_nonneg ih (hpos _ _ _ hlink).le

theorem IsDist.prefix (hd : IsDist link k v (c + x)) (hw : Walk link k u c) (hx : link u v x) :
    IsDist link k u c :=
  ⟨hw, fun _ hc' => le_of_add_le_add_right (hd.2 _ (hc'.snoc hx))⟩

end Walk

section Search

variable [AddCommMonoid R] [LinearOrder R] [IsOrderedCancelAddMonoid R]
  {link : V → V → R → Prop} {cap : R} {k : V} {cost : L → R} {hops : L → List V}
  {p t p' t' : V → Option L} {bar : R} {u v h : V} {c x : R} {e : L}
variable {old new : Option L} {l : List V}

/-- The label is for a smaller cost than `c`, or for `c` and has `h` among its hops. -/
def Admits (cost : L → R) (hops : L → List V) (e : L) (c : R) (h : V) : Prop :=
  cost e < c ∨ cost e = c ∧ h ∈ hops e

/-- The node is known to be reached over `h` at cost `c`, or to be nearer. -/
def Covered (cost : L → R) (hops : L → List V) (p t : V → Option L) (v : V) (c : R) (h : V) : Prop :=
  (∃ e, p v = some e ∧ Admits cost hops e c h) ∨ ∃ e, t v = some e ∧ Admits cost hops e c h

omit [AddCommMonoid R] [IsOrderedCancelAddMonoid R] in
theorem Covered.exists_le (hc : Covered cost hops p t v c h) :
    (∃ e, p v = some e ∧ cost e ≤ c) ∨ ∃ e, t v = some e ∧ cost e ≤ c := by
  have hle : ∀ e, Admits cost hops e c h → cost e ≤ c := fun e he =>
    he.elim le_of_lt fun he => he.1.le
  exact hc.imp (fun ⟨e, he, ha⟩ => ⟨e, he, hle e ha⟩) fun ⟨e, he, ha⟩ => ⟨e, he, hle e ha⟩

/-- A label of a node other than the source: its hops are different, and walks of its cost start
with them. -/
structure Labelled (link : V → V → R → Prop) (k : V) (cost : L → R) (hops : L → List V) (v : V)
    (e : L) : Prop where
  ne : v ≠ k
  nonempty : hops e ≠ []
  nodup : (hops e).Nodup
  sound : ∀ h ∈ hops e, FirstHop link k v (cost e) h

/-- A search up to the cost `cap` that has come to the cost `bar`: in `p` are the labels of the
nodes that are settled, in `t` those that are tentative. -/
structure HopSearch (link : V → V → R → Prop) (cap : R) (k : V) (cost : L → R) (hops : L → List V)
    (p t : V → Option L) (bar : R) : Prop where
  origin : ∃ e, p k = some e ∧ cost e = 0
  settled : ∀ v e, v ≠ k → p v = some e → Labelled link k cost hops v e
  isDist : ∀ v e, v ≠ k → p v = some e → IsDist link k v (cost e)
  below : ∀ v e, p v = some e → cost e < cap ∧ cost e ≤ bar
  tentative : ∀ v e, t v = some e → Labelled link k cost hops v e
  above : ∀ v e, t v = some e → bar ≤ cost e ∧ cost e ≤ cap
  apart : ∀ v e f, p v = some e → t v = some f → cost e = cost f ∧ ∀ h ∈ hops e, h ∉ hops f

/-- The links of every settled node have been followed, for every hop it is reached by. -/
structure Followed (link : V → V → R → Prop) (cap : R) (k : V) (cost : L → R) (hops : L → List V)
    (p t : V → Option L) : Prop where
  source : ∀ v x, link k v x → x ≤ cap → v ≠ k → Covered cost hops p t v x v
  other : ∀ u e, u ≠ k → p u = some e → ∀ h ∈ hops e, ∀ v x, link u v x → cost e + x ≤ cap →
    v ≠ k → Covered cost hops p t v (cost e + x) h

section

variable (hs : HopSearch link cap k cost hops p t bar) (hf : Followed link cap k cost hops p t)
  (hpos : ∀ u v x, link u v x → 0 < x)
include hs hf hpos

theorem HopSearch.reach (hw : Walk link k v c) (hc : c ≤ cap) :
    (∃ e, p v = some e ∧ cost e ≤ c) ∨ ∃ u e, t u = some e ∧ cost e ≤ c := by
  obtain ⟨e₀, he₀, hzero⟩ := hs.origin
  induction hw with
  | nil => exact Or.inl ⟨e₀, he₀, hzero.le⟩
  | @snoc u v c x hwalk hlink ih =>
    have hcx : c ≤ c + x := le_add_of_nonneg_right (hpos _ _ _ hlink).le
    by_cases hv : v = k
    · subst hv
      exact Or.inl ⟨e₀, he₀, hzero ▸ (hwalk.nonneg hpos).trans hcx⟩
    rcases ih (hcx.trans hc) with ⟨e, he, hle⟩ | ⟨u', e, he, hle⟩
    · have hex : cost e + x ≤ c + x := add_le_add_left hle x
      have hcov : ∃ h, Covered cost hops p t v (cost e + x) h := by
        by_cases hu : u = k
        · subst hu
          obtain rfl := Option.some.inj (he.symm.trans he₀)
          rw [hzero, zero_add] at hex ⊢
          exact ⟨v, hf.source v x hlink (hex.trans hc) hv⟩
        · obtain ⟨h, hh⟩ := exists_mem_of_ne_nil _ (hs.settled u e hu he).nonempty
          exact ⟨h, hf.other u e hu he h hh v x hlink (hex.trans hc) hv⟩
      obtain ⟨h, hcov⟩ := hcov
      rcases hcov.exists_le with ⟨f, hf, hle⟩ | ⟨f, hf, hle⟩
      · exact Or.inl ⟨f, hf, hle.trans hex⟩
      · exact Or.inr ⟨v, f, hf, hle.trans hex⟩
    · exact Or.inr ⟨u', e, he, hle.trans hcx⟩

theorem HopSearch.isDist_of_least
    (he : t v = some e) (hmin : ∀ u f, t u = some f → cost e ≤ cost f) :
    IsDist link k v (cost e) := by
  have hl := hs.tentative v e he
  obtain ⟨h, hh⟩ := exists_mem_of_ne_nil _ hl.nonempty
  refine ⟨(hl.sound h hh).walk, fun c' hc' => ?_⟩
  by_contra hlt
  rw [not_le] at hlt
  rcases hs.reach hf hpos hc' (hlt.le.trans (hs.above v e he).2) with ⟨f, hf, hle⟩ | ⟨u, f, hf, hle⟩
  · exact absurd ((hs.apart v f e hf he).1 ▸ hle) hlt.not_ge
  · exact absurd ((hmin u f hf).trans hle) hlt.not_ge

end

/-- The first hop of a tentative label is settled, and leaves the label. -/
structure Pops (cost : L → R) (hops : L → List V) (p t : V → Option L) (v : V) (e : L) (h : V)
    (p' t' : V → Option L) : Prop where
  found : t v = some e
  settled : ∃ f, p' v = some f ∧ cost f = cost e ∧
    hops f = ((p v).elim [] hops) ++ [h]
  rest : ∃ l, hops e = h :: l ∧ (∀ f, t' v = some f → cost f = cost e ∧ hops f = l ∧ l ≠ []) ∧
    (t' v = none → l = [])
  frame : ∀ u, u ≠ v → p' u = p u ∧ t' u = t u

omit [AddCommMonoid R] [IsOrderedCancelAddMonoid R] in
theorem Pops.covered (hp : Pops cost hops p t v e h p' t')
    (ha : ∀ f, p v = some f → cost f = cost e) {w : V} {h' : V}
    (hc : Covered cost hops p t w c h') : Covered cost hops p' t' w c h' := by
  by_cases hw : w = v
  · subst hw
    obtain ⟨f, hf, hcost, hhops⟩ := hp.settled
    obtain ⟨l, hl, hsome, hnone⟩ := hp.rest
    rcases hc with ⟨g, hg, hadm⟩ | ⟨g, hg, hadm⟩
    · refine Or.inl ⟨f, hf, ?_⟩
      rw [Admits, hcost, ← ha g hg]
      refine hadm.imp_right fun hadm => ⟨hadm.1, ?_⟩
      rw [hhops, hg]
      exact mem_append_left _ hadm.2
    · obtain rfl := Option.some.inj (hg.symm.trans hp.found)
      rcases hadm with hlt | ⟨heq, hmem⟩
      · exact Or.inl ⟨f, hf, Or.inl (hcost ▸ hlt)⟩
      rw [hl] at hmem
      rcases mem_cons.1 hmem with rfl | hmem
      · refine Or.inl ⟨f, hf, Or.inr ⟨hcost.trans heq, ?_⟩⟩
        rw [hhops]
        exact mem_append_right _ (mem_singleton_self _)
      · cases ht : t' w with
        | none => exact absurd (hnone ht ▸ hmem) not_mem_nil
        | some f' =>
          obtain ⟨hcost', hhops', -⟩ := hsome f' ht
          exact Or.inr ⟨f', ht, Or.inr ⟨hcost'.trans heq, hhops' ▸ hmem⟩⟩
  · obtain ⟨hpw, htw⟩ := hp.frame w hw
    rwa [Covered, hpw, htw]

omit [IsOrderedCancelAddMonoid R] in
theorem HopSearch.pop (hs : HopSearch link cap k cost hops p t bar)
    (hd : IsDist link k v (cost e)) (hmin : ∀ u f, t u = some f → cost e ≤ cost f)
    (hlt : cost e < cap) (hp : Pops cost hops p t v e h p' t') :
    HopSearch link cap k cost hops p' t' (cost e) := by
  have hl := hs.tentative v e hp.found
  have hbar := (hs.above v e hp.found).1
  obtain ⟨f, hf, hcost, hhops⟩ := hp.settled
  obtain ⟨l, hel, hsome, -⟩ := hp.rest
  have hmem : h ∈ hops e := hel ▸ mem_cons_self
  have hold : ∀ g, p v = some g → Labelled link k cost hops v g ∧ cost g = cost e ∧
      ∀ h' ∈ hops g, h' ∉ hops e := fun g hg =>
    ⟨hs.settled v g hl.ne hg, hs.apart v g e hg hp.found⟩
  have hnew : Labelled link k cost hops v f := by
    refine ⟨hl.ne, by simp [hhops], ?_, fun h' hh' => ?_⟩
    · rw [hhops]
      cases hg : p v with
      | none => exact nodup_singleton h
      | some g =>
        obtain ⟨hgl, -, hdis⟩ := hold g hg
        refine nodup_append.2 ⟨hgl.nodup, nodup_singleton h, fun a ha b hb => ?_⟩
        obtain rfl := mem_singleton.1 hb
        rintro rfl
        exact hdis a ha hmem
    · rw [hhops, mem_append, mem_singleton] at hh'
      rw [hcost]
      rcases hh' with hh' | rfl
      · cases hg : p v with
        | none => simp [hg] at hh'
        | some g =>
          obtain ⟨hgl, heq, -⟩ := hold g hg
          rw [hg] at hh'
          exact heq ▸ hgl.sound h' hh'
      · exact hl.sound _ hmem
  have hrest : ∀ g, t' v = some g → cost g = cost e ∧ Labelled link k cost hops v g ∧
      hops g = l := fun g hg => by
    obtain ⟨hc, hh, hne⟩ := hsome g hg
    refine ⟨hc, ⟨hl.ne, hh ▸ hne, ?_, fun h' hh' => ?_⟩, hh⟩
    · exact hh ▸ (hel ▸ hl.nodup).of_cons
    · exact hc ▸ hl.sound h' (hel ▸ mem_cons_of_mem h (hh ▸ hh'))
  constructor
  case origin =>
    obtain ⟨e₀, he₀, hzero⟩ := hs.origin
    exact ⟨e₀, ((hp.frame k (Ne.symm hl.ne)).1).trans he₀, hzero⟩
  case settled =>
    intro u g hu hg
    by_cases huv : u = v
    · subst huv
      exact Option.some.inj (hf.symm.trans hg) ▸ hnew
    · exact hs.settled u g hu ((hp.frame u huv).1 ▸ hg)
  case isDist =>
    intro u g hu hg
    by_cases huv : u = v
    · subst huv
      obtain rfl := Option.some.inj (hf.symm.trans hg)
      rwa [hcost]
    · exact hs.isDist u g hu ((hp.frame u huv).1 ▸ hg)
  case below =>
    intro u g hg
    by_cases huv : u = v
    · subst huv
      obtain rfl := Option.some.inj (hf.symm.trans hg)
      exact ⟨hcost ▸ hlt, hcost.le⟩
    · have := hs.below u g ((hp.frame u huv).1 ▸ hg)
      exact ⟨this.1, this.2.trans hbar⟩
  case tentative =>
    intro u g hg
    by_cases huv : u = v
    · subst huv
      exact (hrest g hg).2.1
    · exact hs.tentative u g ((hp.frame u huv).2 ▸ hg)
  case above =>
    intro u g hg
    by_cases huv : u = v
    · subst huv
      rw [(hrest g hg).1]
      exact ⟨le_rfl, hlt.le⟩
    · rw [(hp.frame u huv).2] at hg
      exact ⟨hmin u g hg, (hs.above u g hg).2⟩
  case apart =>
    intro u g g' hg hg'
    by_cases huv : u = v
    · subst huv
      obtain rfl := Option.some.inj (hf.symm.trans hg)
      obtain ⟨hc, -, hh⟩ := hrest g' hg'
      refine ⟨hcost.trans hc.symm, fun h' hh' => ?_⟩
      rw [hh]
      rw [hhops, mem_append, mem_singleton] at hh'
      rcases hh' with hh' | rfl
      · cases hg₀ : p u with
        | none => simp [hg₀] at hh'
        | some g₀ =>
          rw [hg₀] at hh'
          have := (hold g₀ hg₀).2.2 h' hh'
          exact fun hm => this (hel ▸ mem_cons_of_mem h hm)
      · exact (nodup_cons.1 (hel ▸ hl.nodup)).1
    · rw [(hp.frame u huv).1] at hg
      rw [(hp.frame u huv).2] at hg'
      exact hs.apart u g g' hg hg'

/-- What a label becomes when the node is also reached at cost `c` over the hops `l`. -/
inductive Merges (cost : L → R) (hops : L → List V) (c : R) (l : List V) (old new : Option L) : Prop
  | replaced {f : L} (hold : ∀ e, old = some e → c < cost e) (hnew : new = some f)
    (hcost : cost f = c) (hhops : hops f = l)
  | kept {e : L} (hold : old = some e) (hlt : cost e < c) (hnew : new = old)
  | joined {e f : L} (hold : old = some e) (heq : cost e = c) (hnew : new = some f)
    (hcost : cost f = c) (hnodup : (hops e).Nodup → (hops f).Nodup)
    (hmem : ∀ h, h ∈ hops f ↔ h ∈ hops e ∨ h ∈ l)

omit [AddCommMonoid R] [IsOrderedCancelAddMonoid R] in
theorem Merges.admits {x : R} (hm : Merges cost hops x l old new) (he : old = some e)
    (ha : Admits cost hops e c h) : ∃ f, new = some f ∧ Admits cost hops f c h := by
  rcases hm with @⟨f, hold, hnew, hcost, -⟩ | @⟨e', hold, -, hnew⟩ |
    @⟨e', f, hold, heq, hnew, hcost, -, hmem⟩
  · refine ⟨f, hnew, Or.inl ?_⟩
    rw [hcost]
    exact (hold e he).trans_le (ha.elim le_of_lt fun ha => ha.1.le)
  · exact ⟨e, hnew.trans he, ha⟩
  · obtain rfl := Option.some.inj (hold.symm.trans he)
    refine ⟨f, hnew, ?_⟩
    rw [Admits, hcost, ← heq]
    exact ha.imp_right fun ha => ⟨ha.1, (hmem h).2 (Or.inl ha.2)⟩

omit [AddCommMonoid R] [IsOrderedCancelAddMonoid R] in
theorem Merges.admits_new (hm : Merges cost hops c l old new) (hh : h ∈ l) :
    ∃ f, new = some f ∧ Admits cost hops f c h := by
  rcases hm with @⟨f, -, hnew, hcost, hhops⟩ | @⟨e, hold, hlt, hnew⟩ | @⟨e, f, -, -, hnew, hcost, -, hmem⟩
  · exact ⟨f, hnew, Or.inr ⟨hcost, hhops ▸ hh⟩⟩
  · exact ⟨e, hnew.trans hold, Or.inl hlt⟩
  · exact ⟨f, hnew, Or.inr ⟨hcost, (hmem h).2 (Or.inr hh)⟩⟩

omit [IsOrderedCancelAddMonoid R] in
theorem HopSearch.merge (hs : HopSearch link cap k cost hops p t bar) (hv : p v = none)
    (hl : l ≠ []) (hnd : l.Nodup) (hsound : ∀ h ∈ l, FirstHop link k v c h) (hbar : bar ≤ c)
    (hcap : c ≤ cap) (hm : Merges cost hops c l (t v) (t' v)) (hframe : ∀ u, u ≠ v → t' u = t u) :
    HopSearch link cap k cost hops p t' bar := by
  have hk : v ≠ k := by
    rintro rfl
    obtain ⟨e, he, -⟩ := hs.origin
    rw [hv] at he
    cases he
  have hnew : ∀ f, t' v = some f →
      Labelled link k cost hops v f ∧ bar ≤ cost f ∧ cost f ≤ cap := by
    intro f hf
    rcases hm with @⟨f', -, hnew, hcost, hhops⟩ | @⟨e, -, -, hnew⟩ |
      @⟨e, f', hold, heq, hnew, hcost, hnodup, hmem⟩
    · obtain rfl := Option.some.inj (hf.symm.trans hnew)
      subst hcost hhops
      exact ⟨⟨hk, hl, hnd, hsound⟩, hbar, hcap⟩
    · rw [hnew] at hf
      exact ⟨hs.tentative v f hf, hs.above v f hf⟩
    · obtain rfl := Option.some.inj (hf.symm.trans hnew)
      have hel := hs.tentative v e hold
      refine ⟨⟨hk, fun hnil => ?_, hnodup hel.nodup, fun h hh => ?_⟩, hcost ▸ hbar, hcost ▸ hcap⟩
      · obtain ⟨a, ha⟩ := exists_mem_of_ne_nil l hl
        exact absurd ((hmem a).2 (Or.inr ha)) (hnil ▸ not_mem_nil)
      · rw [hcost]
        rcases (hmem h).1 hh with hh | hh
        · exact heq ▸ hel.sound h hh
        · exact hsound h hh
  refine ⟨hs.origin, hs.settled, hs.isDist, hs.below, fun u f hf => ?_, fun u f hf => ?_,
    fun u e f he hf => ?_⟩
  · by_cases huv : u = v
    · subst huv
      exact (hnew f hf).1
    · exact hs.tentative u f (hframe u huv ▸ hf)
  · by_cases huv : u = v
    · subst huv
      exact (hnew f hf).2
    · exact hs.above u f (hframe u huv ▸ hf)
  · by_cases huv : u = v
    · subst huv
      rw [hv] at he
      cases he
    · exact hs.apart u e f he (hframe u huv ▸ hf)

theorem HopSearch.complete (hs : HopSearch link cap k cost hops p t bar)
    (hf : Followed link cap k cost hops p t) (hpos : ∀ u v x, link u v x → 0 < x)
    (ht : ∀ v, t v = none) (hd : IsDist link k v c) (hc : c ≤ cap) (hv : v ≠ k)
    (hh : FirstHop link k v c h) : ∃ e, p v = some e ∧ cost e = c ∧ h ∈ hops e := by
  have hcov : ∀ {v c h}, IsDist link k v c → v ≠ k → Covered cost hops p t v c h →
      ∃ e, p v = some e ∧ cost e = c ∧ h ∈ hops e := by
    intro v c h hd hv hcov
    rcases hcov with ⟨e, he, hlt | ⟨heq, hh⟩⟩ | ⟨e, he, -⟩
    · exact absurd (hd.2 _ (hs.isDist v e hv he).1) hlt.not_ge
    · exact ⟨e, he, heq, hh⟩
    · exact absurd he (by simp [ht v])
  obtain ⟨x, y, hx, hy, rfl⟩ := hh
  induction hy with
  | nil =>
    rw [add_zero] at hd hc ⊢
    exact hcov hd hv (hf.source h x hx hc hv)
  | @snoc u v y z hy hz ih =>
    rw [← add_assoc] at hd hc ⊢
    have hpre : IsDist link k u (x + y) := hd.prefix ((Walk.single hx).trans hy) hz
    have hle : x + y ≤ cap := (le_add_of_nonneg_right (hpos _ _ _ hz).le).trans hc
    have hu : u ≠ k := by
      rintro rfl
      have hxy : 0 < x + y := add_pos_of_pos_of_nonneg (hpos _ _ _ hx) (hy.nonneg hpos)
      exact absurd (hpre.2 _ Walk.nil) hxy.not_ge
    obtain ⟨e, he, heq, hh⟩ := ih hu hpre hle
    have := hf.other u e hu he h hh v z hz (heq ▸ hc) hv
    exact hcov hd hv (heq ▸ this)

end Search

end Ns2
