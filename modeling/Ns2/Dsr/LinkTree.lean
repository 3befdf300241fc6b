import Mathlib.Algebra.Order.Ring.Rat
import Ns2.Dsr.LinkCache
import Ns2.Lib.ShortestPath

/-! `dijkstra` leaves a tree of routes with the fewest hops. -/

namespace Ns2

open List

namespace Dsr

/-- The nodes that the arrays are used for. -/
def InRange (v : ℕ) : Prop := 0 < v ∧ v ≤ lcMaxNodes

/-- There is a link from `u` to `v`. -/
def Has (lcache : ℕ → List Link) (u v : ℕ) : Prop := ∃ l ∈ lcache u, l.dst = v

/-- The links are between nodes in range, up, and of cost 1. -/
def Plain (lcache : ℕ → List Link) : Prop :=
  ∀ u, ∀ l ∈ lcache u, InRange u ∧ InRange l.dst ∧ l.isUp = true ∧ l.cost = 1

theorem Plain.inRange {lcache : ℕ → List Link} {u v : ℕ} (h : Plain lcache) (huv : Has lcache u v) :
    InRange u ∧ InRange v := by
  obtain ⟨l, hl, rfl⟩ := huv
  exact ⟨(h u l hl).1, (h u l hl).2.1⟩

namespace Tree

variable {lcache : ℕ → List Link} {T T' : Tree} {root u v x : ℕ} {links : List Link} {timeout : Time}

theorem mem_nodes : v ∈ nodes ↔ InRange v := by
  unfold nodes InRange
  rw [mem_range'_1]
  omega

/-- The tree spans what can be reached over the links. -/
def Spans (lcache : ℕ → List Link) (root : ℕ) (T : Tree) : Prop :=
  Frontier (Has lcache) root (fun v => InRange v ∧ T.d v < infinity) [] T.d (fun v u => T.pi v = u)

/-- The distance, where there is one. -/
def dist (T : Tree) (v : ℕ) : ℕ := if 0 < v ∧ v ≤ lcMaxNodes then T.d v else infinity

theorem dist_of_inRange (hv : InRange v) : T.dist v = T.d v := if_pos hv

theorem dist_of_not_inRange (hv : ¬InRange v) : T.dist v = infinity := if_neg hv

/-- What has happened to a node when links of `u` to the nodes with `done` are relaxed. -/
inductive Reached (T T' : Tree) (u : ℕ) (done : Prop) (v : ℕ) : Prop
  | kept (hd : T'.d v = T.d v) (hpi : T'.pi v = T.pi v) (hle : done → T.d v ≤ T.d u + 1)
  | lowered (hdone : done) (hd : T'.d v = T.d u + 1) (hle : T.d u + 1 ≤ T.d v) (hpi : T'.pi v = u)

theorem relax_spec (hu : T.d u < infinity) :
    ∃ T', T.relax u x 1 timeout = some T' ∧ T'.S = T.S ∧ T'.d u = T.d u ∧
      ∀ v, Reached T T' u (v = x) v := by
  unfold relax
  rw [if_pos ⟨hu, rfl⟩]
  by_cases hcond : T.d x > T.d u + 1 ∨ T.d x = T.d u + 1 ∧ T.dl x < T.dl u ∧ T.dl x < timeout
  · have hle : T.d u + 1 ≤ T.d x := by
      rcases hcond with h | h
      · exact h.le
      · exact h.1.ge
    rw [if_pos hcond]
    refine ⟨_, rfl, rfl, ?_, fun v => ?_⟩
    · have hne : u ≠ x := by
        rintro rfl
        omega
      exact if_neg hne
    · by_cases hv : v = x
      · exact .lowered hv (if_pos hv) (hv ▸ hle) (if_pos hv)
      · exact .kept (if_neg hv) (if_neg hv) fun h => absurd h hv
  · rw [if_neg hcond]
    refine ⟨T, rfl, rfl, rfl, fun v => .kept rfl rfl fun hv => ?_⟩
    rw [hv]
    omega

theorem scan_spec (hlinks : ∀ l ∈ links, l.isUp = true ∧ l.cost = 1) (hu : T.d u < infinity) :
    ∃ T', T.scan u links = some T' ∧ T'.S = T.S ∧
      ∀ v, Reached T T' u (∃ l ∈ links, l.dst = v) v := by
  unfold scan
  induction links generalizing T with
  | nil => exact ⟨T, rfl, rfl, fun v => .kept rfl rfl fun ⟨l, hl, _⟩ => absurd hl not_mem_nil⟩
  | cons l links ih =>
    obtain ⟨hl, hlinks⟩ := forall_mem_cons.1 hlinks
    obtain ⟨T₁, hT₁, hS₁, hu₁, hr₁⟩ := relax_spec (x := l.dst) hu
    obtain ⟨T₂, hT₂, hS₂, hr₂⟩ := ih hlinks (T := T₁) (hu₁ ▸ hu)
    refine ⟨T₂, ?_, hS₂.trans hS₁, fun v => ?_⟩
    · rw [foldlM_cons, if_pos hl.1, hl.2, hT₁]
      exact hT₂
    · have hcons : (∃ l' ∈ l :: links, l'.dst = v) ↔ v = l.dst ∨ ∃ l' ∈ links, l'.dst = v := by
        simp [eq_comm]
      rw [hcons]
      rcases hr₂ v with ⟨hd₂, hpi₂, hle₂⟩ | ⟨hdone, hd₂, hle₂, hpi₂⟩
      · rcases hr₁ v with ⟨hd₁, hpi₁, hle₁⟩ | ⟨hv, hd₁, hle₁, hpi₁⟩
        · refine .kept (hd₂.trans hd₁) (hpi₂.trans hpi₁) fun h => ?_
          rcases h with h | h
          · exact hle₁ h
          · rw [← hd₁, ← hu₁]
            exact hle₂ h
        · exact .lowered (.inl hv) (hd₂.trans hd₁) hle₁ (hpi₂.trans hpi₁)
      · rw [hu₁] at hd₂ hle₂
        refine .lowered (.inr hdone) hd₂ ?_ hpi₂
        rcases hr₁ v with ⟨hd₁, -, -⟩ | ⟨-, -, hle₁, -⟩
        · exact hd₁ ▸ hle₂
        · exact hle₁

theorem foldl_extractMinQ {l : List ℕ} {m : ℕ} (hl : ∀ u ∈ l, u ≠ 0) (hm : m ≠ 0 → T.S m = false ∧ T.d m < infinity) :
    let r := l.foldl (fun minU u =>
      if T.S u = false ∧ T.d u < infinity ∧
        (minU = 0 ∨ T.d u < T.d minU ∨ T.d u = T.d minU ∧ T.dl u > T.dl minU) then u
      else minU) m
    (r = m ∨ r ∈ l) ∧ (r ≠ 0 → T.S r = false ∧ T.d r < infinity) ∧ (m ≠ 0 → r ≠ 0 ∧ T.d r ≤ T.d m) ∧
      ∀ u ∈ l, T.S u = false → T.d u < infinity → r ≠ 0 ∧ T.d r ≤ T.d u := by
  induction l generalizing m with
  | nil => exact ⟨.inl rfl, hm, fun h => ⟨h, le_rfl⟩, fun u hu => absurd hu not_mem_nil⟩
  | cons a l ih =>
    obtain ⟨ha, hl⟩ := forall_mem_cons.1 hl
    rw [foldl_cons]
    split_ifs with hcond
    · obtain ⟨hmem, hr, hle, hall⟩ := ih hl (m := a) fun _ => ⟨hcond.1, hcond.2.1⟩
      have hra := hle ha
      refine ⟨.inr ?_, hr, fun h => ⟨hra.1, hra.2.trans ?_⟩, fun u hu hS hd => ?_⟩
      · rcases hmem with h | h
        · rw [h]
          exact mem_cons_self
        · exact mem_cons_of_mem a h
      · rcases hcond.2.2 with h' | h' | h'
        · exact absurd h' h
        · exact h'.le
        · exact h'.1.le
      · rcases mem_cons.1 hu with rfl | hu
        · exact hra
        · exact hall u hu hS hd
    · obtain ⟨hmem, hr, hle, hall⟩ := ih hl (m := m) hm
      refine ⟨?_, hr, hle, fun u hu hS hd => ?_⟩
      · rcases hmem with h | h
        · exact .inl h
        · exact .inr (mem_cons_of_mem a h)
      · rcases mem_cons.1 hu with rfl | hu
        · have hm0 : m ≠ 0 := fun h => hcond ⟨hS, hd, .inl h⟩
          refine ⟨(hle hm0).1, (hle hm0).2.trans (not_lt.1 fun h => hcond ⟨hS, hd, .inr (.inl h)⟩)⟩
        · exact hall u hu hS hd

theorem extractMinQ_spec (T : Tree) :
    (T.extractMinQ ≠ 0 → InRange T.extractMinQ ∧ T.S T.extractMinQ = false ∧
      T.d T.extractMinQ < infinity) ∧
    ∀ u, InRange u → T.S u = false → T.d u < infinity →
      T.extractMinQ ≠ 0 ∧ T.d T.extractMinQ ≤ T.d u := by
  obtain ⟨hmem, hr, -, hall⟩ := foldl_extractMinQ (T := T) (l := nodes) (m := 0)
    (fun u hu => (mem_nodes.1 hu).1.ne') fun h => absurd rfl h
  exact ⟨fun h => ⟨mem_nodes.1 (hmem.resolve_left h), hr h⟩,
    fun u hu => hall u (mem_nodes.2 hu)⟩

variable {fuel : ℕ}

/-- How a node is reached at a distance. -/
def Via (lcache : ℕ → List Link) (root v e b : ℕ) : Prop :=
  v = root ∧ e = 0 ∨ Has lcache b v ∧ ∃ c, Walk (Hop (Has lcache)) root b c ∧ e = c + 1

open Classical in
/-- The length of a link. -/
noncomputable def hop (lcache : ℕ → List Link) (u v : ℕ) : ℕ := if Has lcache u v then 1 else infinity

/-- The search after some nodes are settled, with `fuel` to go. -/
structure Searching (lcache : ℕ → List Link) (root fuel : ℕ) (T : Tree) : Prop where
  search : Search (hop lcache) infinity root (Via lcache root) {v | InRange v ∧ T.S v = true} T.dist
    T.pi
  le : ∀ v, InRange v → T.d v ≤ infinity
  bound : ∀ v, InRange v → T.d v < infinity → T.d v + fuel ≤ lcMaxNodes + 1

theorem Via.walk {e b : ℕ} (h : Via lcache root v e b) : Walk (Hop (Has lcache)) root v e := by
  rcases h with ⟨rfl, rfl⟩ | ⟨hlink, c, hwalk, rfl⟩
  · exact Walk.nil
  · exact hwalk.snoc ⟨hlink, rfl⟩

theorem searching_init (hroot : InRange root) :
    Searching lcache root (lcMaxNodes + 1) (T.initSingleSource root) := by
  have hd : ∀ v, InRange v → (T.initSingleSource root).d v = if v = root then 0 else infinity := by
    intro v hv
    exact if_congr Iff.rfl rfl (if_pos (mem_nodes.2 hv))
  have hS : ∀ v, ¬(InRange v ∧ (T.initSingleSource root).S v = true) := by
    rintro v ⟨hv, hS⟩
    have hfalse : (T.initSingleSource root).S v = false := if_pos (mem_nodes.2 hv)
    rw [hfalse] at hS
    cases hS
  refine ⟨⟨?_, fun v => Nat.zero_le _, fun v hv => absurd hv (hS v), fun v hv => absurd hv (hS v),
    fun v hv => absurd hv (hS v), fun v hv => ?_⟩, fun v hv => ?_, fun v hv hlt => ?_⟩
  · rw [dist_of_inRange hroot, hd root hroot, if_pos rfl]
  · by_cases hr : InRange v
    · rw [dist_of_inRange hr, hd v hr] at hv ⊢
      split_ifs at hv ⊢ with heq
      · exact .inl ⟨heq, rfl⟩
      · exact absurd hv (lt_irrefl _)
    · rw [dist_of_not_inRange hr] at hv
      exact absurd hv (lt_irrefl _)
  · rw [hd v hv]
    split_ifs
    · exact Nat.zero_le _
    · exact le_rfl
  · rw [hd v hv] at hlt ⊢
    split_ifs at hlt ⊢
    · exact (Nat.zero_add _).le
    · exact absurd hlt (lt_irrefl _)

/-- The nodes to be settled. -/
def unsettled (T : Tree) : Finset ℕ := nodes.toFinset.filter fun v => T.S v = false

theorem Searching.dist_le (h : Searching lcache root fuel T) (v : ℕ) : T.dist v ≤ infinity := by
  by_cases hv : InRange v
  · rw [dist_of_inRange hv]
    exact h.le v hv
  · exact (dist_of_not_inRange hv).le

theorem hop_of_has (h : Has lcache u v) : hop lcache u v = 1 := if_pos h

theorem Searching.settle_one (h : Searching lcache root (fuel + 1) T) (hplain : Plain lcache)
    (hu : InRange u) (hS : T.S u = false) (hlt : T.d u < infinity)
    (hmin : ∀ v, InRange v → T.S v = false → T.d v < infinity → T.d u ≤ T.d v) {T₁ : Tree}
    (hS₁ : T₁.S = fun x => if x = u then true else T.S x)
    (hr : ∀ v, Reached T T₁ u (Has lcache u v) v) : Searching lcache root fuel T₁ := by
  have hset : {v | InRange v ∧ T₁.S v = true} = insert u {v | InRange v ∧ T.S v = true} := by
    ext v
    rw [Set.mem_insert_iff, Set.mem_ofPred_eq, Set.mem_ofPred_eq, hS₁]
    by_cases hv : v = u
    · subst hv
      simp [hu]
    · simp [hv]
  have hnot : u ∉ {v | InRange v ∧ T.S v = true} := fun hmem =>
    Bool.false_ne_true (hS.symm.trans hmem.2)
  have hdu := dist_of_inRange (T := T) hu
  refine ⟨?_, fun v hv => ?_, fun v hv hd => ?_⟩
  · rw [hset]
    refine h.search.settle (fun _ _ => Nat.zero_le _) hnot (hdu ▸ hlt) (fun v hv => ?_)
      (fun v hv => ?_) fun v hv hne => ?_
    · rw [hdu]
      by_cases hvr : InRange v
      · rw [dist_of_inRange hvr]
        by_cases hvd : T.d v < infinity
        · exact hmin v hvr (Bool.eq_false_iff.2 fun hSv => hv ⟨hvr, hSv⟩) hvd
        · exact hlt.le.trans (not_lt.1 hvd)
      · rw [dist_of_not_inRange hvr]
        exact hlt.le
    · have hvr : InRange v := by
        rcases hv with hv | rfl
        · exact hv.1
        · exact hu
      rw [dist_of_inRange hvr, dist_of_inRange hvr]
      rcases hr v with ⟨hd, hpi, -⟩ | ⟨-, hd, hle, -⟩
      · exact ⟨hd, hpi⟩
      · have hvu : T.d v ≤ T.d u := by
          rcases hv with hv | rfl
          · have := h.search.sorted v hv u hnot
            rwa [dist_of_inRange hvr, hdu] at this
          · exact le_rfl
        omega
    · rcases hr v with ⟨hd, hpi, hle⟩ | ⟨hlink, hd, hle, hpi⟩
      · have hdist : T₁.dist v = T.dist v := by
          by_cases hvr : InRange v
          · rw [dist_of_inRange hvr, dist_of_inRange hvr, hd]
          · rw [dist_of_not_inRange hvr, dist_of_not_inRange hvr]
        refine .kept hdist hpi ?_
        by_cases hlink : Has lcache u v
        · rw [hop_of_has hlink, hdu, dist_of_inRange (hplain.inRange hlink).2]
          exact hle hlink
        · rw [hop, if_neg hlink]
          exact (h.dist_le v).trans (Nat.le_add_left _ _)
      · have hvr := (hplain.inRange hlink).2
        have hsound := (h.search.sound u (hdu ▸ hlt)).walk
        rw [hdu] at hsound
        rw [hpi]
        refine .lowered ?_ ?_ fun _ => .inr ⟨hlink, T.d u, hsound, ?_⟩
        · rw [dist_of_inRange hvr, hdu, hop_of_has hlink, hd]
        · rw [dist_of_inRange hvr, hdu, hop_of_has hlink]
          exact hle
        · rw [dist_of_inRange hvr, hd]
  · rcases hr v with ⟨hd, -, -⟩ | ⟨-, hd, hle, -⟩
    · exact hd ▸ h.le v hv
    · exact hd ▸ hle.trans (h.le v hv)
  · rcases hr v with ⟨hd', -, -⟩ | ⟨-, hd', -, -⟩
    · have := h.bound v hv (hd' ▸ hd)
      omega
    · have := h.bound u hu hlt
      omega

theorem Searching.settle (h : Searching lcache root fuel T) (hplain : Plain lcache)
    (hfuel : T.unsettled.card < fuel) :
    ∃ T', T.settle lcache fuel = some T' ∧ (∃ fuel', 0 < fuel' ∧ Searching lcache root fuel' T') ∧
      ∀ u, InRange u → T'.S u = false → infinity ≤ T'.d u := by
  induction fuel generalizing T with
  | zero => exact absurd hfuel (Nat.not_lt_zero _)
  | succ fuel ih =>
    obtain ⟨hpick, hmin⟩ := T.extractMinQ_spec
    unfold Tree.settle
    by_cases hzero : T.extractMinQ = 0
    · refine ⟨T, if_neg (not_not.2 hzero), ⟨fuel + 1, Nat.succ_pos _, h⟩, fun u hu hS => ?_⟩
      by_contra hlt
      exact (hmin u hu hS (not_le.1 hlt)).1 hzero
    · rw [if_pos hzero]
      obtain ⟨hu, hS, hlt⟩ := hpick hzero
      generalize T.extractMinQ = u at *
      obtain ⟨T₁, hT₁, hS₁, hr⟩ := scan_spec (T := ⟨T.dl, T.d, T.pi, fun x => if x = u then true else T.S x⟩)
        (fun l hl => (hplain u l hl).2.2) hlt
      have hr' : ∀ v, Reached T T₁ u (Has lcache u v) v := by
        intro v
        rcases hr v with ⟨hd, hpi, hle⟩ | ⟨hdone, hd, hle, hpi⟩
        · exact .kept hd hpi hle
        · exact .lowered hdone hd hle hpi
      have hone := h.settle_one hplain hu hS hlt (fun v hv hSv hdv => (hmin v hv hSv hdv).2) hS₁ hr'
      have hcard : T₁.unsettled.card < T.unsettled.card := by
        refine Finset.card_lt_card ⟨fun v hv => ?_, fun hsub => ?_⟩
        · unfold unsettled at hv ⊢
          rw [Finset.mem_filter, hS₁] at hv
          dsimp only at hv
          split_ifs at hv with heq
          · exact absurd hv.2 (by decide)
          · exact Finset.mem_filter.2 hv
        · have hmem : u ∈ T₁.unsettled :=
            hsub (Finset.mem_filter.2 ⟨mem_toFinset.2 (mem_nodes.2 hu), hS⟩)
          unfold unsettled at hmem
          rw [Finset.mem_filter, hS₁] at hmem
          simp at hmem
      obtain ⟨T', hT', hrest⟩ := ih hone (by omega)
      refine ⟨T', ?_, hrest⟩
      rw [hT₁]
      exact hT'

theorem Searching.spans (h : Searching lcache root fuel T) (hplain : Plain lcache)
    (hroot : InRange root) (hfuel : 0 < fuel)
    (hdone : ∀ u, InRange u → T.S u = false → infinity ≤ T.d u) : T.Spans lcache root := by
  have hcap : ∀ v ∉ {v | InRange v ∧ T.S v = true}, infinity ≤ T.dist v := by
    intro v hv
    by_cases hvr : InRange v
    · rw [dist_of_inRange hvr]
      exact hdone v hvr (Bool.eq_false_iff.2 fun hS => hv ⟨hvr, hS⟩)
    · exact (dist_of_not_inRange hvr).ge
  have hzero := h.search.zero
  rw [dist_of_inRange hroot] at hzero
  have hstep : ∀ u v, InRange u → T.d u < infinity → Has lcache u v → T.d v ≤ T.d u + 1 := by
    intro u v hu hlt hlink
    have hmem : u ∈ {v | InRange v ∧ T.S v = true} := by
      by_contra hnot
      exact absurd (hcap u hnot) (by rw [dist_of_inRange hu]; exact not_le.2 hlt)
    have := h.search.relaxed u hmem v
    rwa [dist_of_inRange hu, dist_of_inRange (hplain.inRange hlink).2, hop_of_has hlink] at this
  refine ⟨⟨hroot, ?_⟩, hzero, fun v hv => absurd hv not_mem_nil, Pairwise.nil,
    fun u hu => absurd hu not_mem_nil, fun u hu _ v hlink => ?_, fun v hv hne => ?_⟩
  · rw [hzero]
    decide
  · have hle := hstep u v hu.1 hu.2 hlink
    have hbound := h.bound u hu.1 hu.2
    refine ⟨⟨(hplain.inRange hlink).2, hle.trans_lt ?_⟩, hle⟩
    unfold lcMaxNodes at hbound
    unfold infinity
    omega
  · have hdv := dist_of_inRange (T := T) hv.1
    have hsound := h.search.sound v (hdv ▸ hv.2)
    rw [hdv] at hsound
    rcases hsound with ⟨heq, -⟩ | ⟨hlink, c, hwalk, hc⟩
    · exact absurd heq hne
    · obtain ⟨hb, hle⟩ := h.search.le_of_walk
        (fun u v x hl _ => (hop_of_has hl.1).trans_le hl.2.ge) (fun _ _ _ _ => Nat.zero_le _) hcap hwalk
        (lt_of_lt_of_le (by omega) hv.2.le)
      rw [dist_of_inRange hb.1] at hle
      have hlt : T.d (T.pi v) < infinity := by omega
      have := hstep _ v hb.1 hlt hlink
      exact ⟨T.pi v, rfl, ⟨hb.1, hlt⟩, hlink, by omega⟩

end Tree

end Dsr

end Ns2
