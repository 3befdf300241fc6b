import Mathlib.Algebra.Order.BigOperators.Group.List
import Ns2.Dsr.LinkOps

/-! `findRoute` finds a route with the fewest hops over links that are up and not expired, if there is
one of fewer than `maxSrLen` nodes. -/

namespace Ns2

open List Nat

namespace Dsr

section Lists

variable {α β : Type*} {g : α → Option α} {p : α → Bool} {L : List α} {x y : α}

theorem find?_replaceF (hg : ∀ a b, g a = some b → p b = p a) :
    (L.replaceF g).find? p = L.find? p ∨
      ∃ a b, L.find? p = some a ∧ g a = some b ∧ (L.replaceF g).find? p = some b := by
  induction L with
  | nil => exact .inl rfl
  | cons a L ih =>
    rw [replaceF_cons]
    cases ha : g a with
    | some b =>
      have hb := hg a b ha
      rw [find?_cons, find?_cons, hb]
      cases p a with
      | true => exact .inr ⟨a, b, rfl, ha, rfl⟩
      | false => exact .inl rfl
    | none =>
      rw [find?_cons, find?_cons]
      cases p a with
      | true => exact .inl rfl
      | false => exact ih

theorem mem_eraseP_of_find? (hx : L.find? p = some x) (hy : y ∈ L) (hne : y ≠ x) : y ∈ L.eraseP p := by
  induction L with
  | nil => cases hy
  | cons a L ih =>
    rw [find?_cons] at hx
    rw [eraseP_cons]
    cases hp : p a with
    | true =>
      rw [hp] at hx
      obtain rfl := Option.some_inj.1 hx
      exact (mem_cons.1 hy).resolve_left hne
    | false =>
      rw [hp] at hx
      rcases mem_cons.1 hy with rfl | hy
      · exact mem_cons_self
      · exact mem_cons_of_mem a (ih hx hy)

theorem map_modify {f : α → α} {k : α → β} (hk : ∀ a, k (f a) = k a) {i : ℕ} :
    (L.modify i f).map k = L.map k := by
  induction L generalizing i with
  | nil => rw [modify_nil]
  | cons a L ih =>
    cases i with
    | zero => exact congrArg (· :: L.map k) (hk a)
    | succ i => exact congrArg (k a :: ·) ih

end Lists

namespace LinkCache

variable {s s' : LinkCache} {now T : Time} {root u v w last : ℕ} {hops l rpath : List ℕ} {fuel : ℕ}

/-- There is a link from `u` to `v` that is up and not expired. -/
def Live (now : Time) (s : LinkCache) (u v : ℕ) : Prop :=
  ∃ l ∈ s.lcache u, l.dst = v ∧ l.isUp = true ∧ l.expired now = false

/-- The link from `u` to `v` that is found is not expired. -/
def Fresh (now : Time) (s : LinkCache) (u v : ℕ) : Prop :=
  ∃ l, s.findLink u v = some l ∧ l.expired now = false

theorem findLink_some {l : Link} (h : s.findLink u v = some l) : l ∈ s.lcache u ∧ l.dst = v := by
  have hdst : decide (l.dst = v) = true := find?_some (p := fun l : Link => l.dst = v) h
  exact ⟨mem_of_find?_eq_some h, of_decide_eq_true hdst⟩

theorem exists_findLink (h : Has s.lcache u v) : ∃ l, s.findLink u v = some l := by
  obtain ⟨l, hl, hv⟩ := h
  exact Option.isSome_iff_exists.1 (find?_isSome.2 ⟨l, hl, decide_eq_true hv⟩)

theorem Fresh.live (h : Fresh now s u v) (hplain : Plain s.lcache) : Live now s u v := by
  obtain ⟨l, hl, hexp⟩ := h
  obtain ⟨hmem, hdst⟩ := findLink_some hl
  exact ⟨l, hmem, hdst, (hplain u l hmem).2.2.1, hexp⟩

theorem Live.has (h : Live now s u v) : Has s.lcache u v := by
  obtain ⟨l, hl, hdst, -⟩ := h
  exact ⟨l, hl, hdst⟩

theorem Ok.dijkstra (h : Ok root T s) (now : Time) :
    ∃ s', s.dijkstra = some s' ∧ Ok root now s' ∧ s'.lcache = s.lcache ∧
      s'.tree.Spans s'.lcache root := by
  have hcard : (s.tree.initSingleSource root).unsettled.card < lcMaxNodes + 1 :=
    lt_succ_of_le ((Finset.card_filter_le _ _).trans (toFinset_card_le _))
  obtain ⟨tree, htree, ⟨fuel, hfuel, hsearch⟩, hdone⟩ :=
    (Tree.searching_init h.inRange).settle h.plain hcard
  have hspans := hsearch.spans h.plain h.inRange hfuel hdone
  refine ⟨{ s with dirty := maxSimtime, tree }, ?_, ⟨h.own, h.inRange, h.plain, fun _ => hspans⟩, rfl,
    hspans⟩
  unfold LinkCache.dijkstra
  rw [h.own, htree]
  rfl

theorem trace_spec {adj : ℕ → ℕ → Prop} (fuel : ℕ) (rpath : List ℕ)
    (h : Ancestry s.netId.addr (fun v u => s.tree.pi v = u) adj v l)
    (hd : ∀ w ∈ l, s.tree.d w < infinity) :
    (l.length ≤ fuel → s.trace fuel v rpath = (s.netId.addr, rpath ++ l.reverse)) ∧
      (fuel < l.length → (s.trace fuel v rpath).2.length = rpath.length + fuel) := by
  induction h generalizing fuel rpath with
  | root =>
    cases fuel with
    | zero => exact ⟨fun h => absurd h (not_succ_le_zero 0), fun _ => rfl⟩
    | succ fuel =>
      refine ⟨fun _ => ?_, fun h => absurd (lt_of_succ_lt_succ h) (not_lt_zero _)⟩
      unfold LinkCache.trace
      rw [if_pos (hd _ mem_cons_self), if_pos rfl]
      rfl
  | @snoc u v l hne hparent hadj h ih =>
    cases fuel with
    | zero =>
      refine ⟨fun h => ?_, fun _ => rfl⟩
      rw [length_append, length_singleton] at h
      exact absurd h (not_succ_le_zero _)
    | succ fuel =>
      have hv := hd v (mem_append_right l (mem_singleton_self v))
      obtain ⟨hshort, hlong⟩ := ih fuel (rpath ++ [v]) fun w hw =>
        hd w (mem_append_left _ hw)
      unfold LinkCache.trace
      rw [if_pos hv, if_neg hne, hparent, length_append, length_singleton]
      refine ⟨fun h => ?_, fun h => ?_⟩
      · rw [hshort (le_of_succ_le_succ h), reverse_append, append_assoc]
        rfl
      · rw [hlong (lt_of_succ_lt_succ h), length_append, length_singleton]
        omega

theorem firstExpired_spec (now : Time) (h : (last :: hops).IsChain (Has s.lcache)) :
    ∃ r, s.firstExpired now last hops = some r ∧
      (r = none → (last :: hops).IsChain (Fresh now s)) ∧
      ∀ u w, r = some (u, w) → ∃ l, s.findLink u w = some l ∧ l.expired now = true := by
  induction hops generalizing last with
  | nil => exact ⟨none, rfl, fun _ => isChain_singleton last, fun u w hr => absurd hr.symm (Option.some_ne_none _)⟩
  | cons v hops ih =>
    obtain ⟨hlink, hrest⟩ := isChain_cons_cons.1 h
    obtain ⟨l, hl⟩ := exists_findLink hlink
    unfold LinkCache.firstExpired
    rw [hl, Option.bind_eq_bind, Option.bind_some]
    cases hexp : l.expired now with
    | true =>
      refine ⟨some (last, v), rfl, fun hr => absurd hr (Option.some_ne_none _), fun u w hr => ?_⟩
      obtain ⟨rfl, rfl⟩ := Prod.mk.inj (Option.some_inj.1 hr)
      exact ⟨l, hl, hexp⟩
    | false =>
      obtain ⟨r, hr, hnone, hsome⟩ := ih hrest
      exact ⟨r, hr, fun h => isChain_cons_cons.2 ⟨⟨l, hl, hexp⟩, hnone h⟩, hsome⟩

theorem live_removeLink {l : Link} (hl : s.findLink u w = some l) (hexp : l.expired now = true)
    (a b : ℕ) : Live now (s.removeLink u w now) a b ↔ Live now s a b := by
  have hcache : (s.removeLink u w now).lcache a =
      if a = u then (s.lcache u).eraseP (·.dst = w) else s.lcache a := rfl
  unfold Live
  rw [hcache]
  split_ifs with ha
  · subst ha
    constructor
    · rintro ⟨l', hl', hrest⟩
      exact ⟨l', mem_of_mem_eraseP hl', hrest⟩
    · rintro ⟨l', hl', hdst, hup, hlive⟩
      refine ⟨l', mem_eraseP_of_find? hl hl' ?_, hdst, hup, hlive⟩
      rintro rfl
      exact absurd (hexp.symm.trans hlive) (by decide)
  · exact Iff.rfl

theorem linkCount_removeLink {l : Link} (now : Time) (hu : InRange u) (hl : s.findLink u w = some l) :
    (s.removeLink u w now).linkCount < s.linkCount := by
  obtain ⟨hmem, hdst⟩ := findLink_some hl
  have hlen : ((s.lcache u).eraseP (·.dst = w)).length < (s.lcache u).length := by
    rw [length_eraseP_of_mem hmem (decide_eq_true hdst)]
    exact sub_lt (length_pos_of_mem hmem) zero_lt_one
  refine sum_lt_sum _ _ (fun a _ => ?_) ⟨u, Tree.mem_nodes.2 hu, ?_⟩
  · change (if a = u then _ else _ : List Link).length ≤ _
    split_ifs with ha
    · rw [ha]
      exact hlen.le
    · exact le_rfl
  · change (if u = u then _ else _ : List Link).length < _
    rw [if_pos rfl]
    exact hlen

theorem Fresh.useLink (h : Fresh now s u v) (src dst : ℕ) (forMe : Bool) :
    Fresh now (s.useLink src dst forMe) u v := by
  cases forMe with
  | false => exact h
  | true =>
    have hcache : (s.useLink src dst true).lcache u =
        if u = src then (s.lcache src).replaceF fun l =>
          if l.dst = dst then some { l with timeout := l.timeout + lcGenUseBonus } else none
        else s.lcache u := rfl
    obtain ⟨l, hl, hexp⟩ := h
    unfold Fresh findLink at *
    rw [hcache]
    split_ifs with hu
    · subst hu
      have hbonus : ∀ a b : Link, (if a.dst = dst then
          some { a with timeout := a.timeout + lcGenUseBonus } else none) = some b →
          b.dst = a.dst ∧ a.timeout ≤ b.timeout := by
        intro a b hab
        split_ifs at hab
        obtain rfl := Option.some_inj.1 hab
        exact ⟨rfl, le_add_of_nonneg_right (by decide)⟩
      rcases find?_replaceF (p := fun l : Link => l.dst = v) (L := s.lcache u) (fun a b hab =>
        decide_eq_decide.2 (iff_of_eq (congrArg (· = v) (hbonus a b hab).1))) with hsame | hnew
      · exact ⟨l, hsame.trans hl, hexp⟩
      · obtain ⟨a, b, ha, hab, hb⟩ := hnew
        obtain rfl := Option.some_inj.1 (ha.symm.trans hl)
        refine ⟨b, hb, ?_⟩
        unfold Link.expired at hexp ⊢
        rw [decide_eq_false_iff_not, not_le] at hexp ⊢
        exact hexp.trans_le (hbonus a b hab).2
    · exact ⟨l, hl, hexp⟩

theorem kept_useLink (src dst : ℕ) (forMe : Bool) : Kept now s (s.useLink src dst forMe) := by
  have hexp : ∀ t : LinkCache, Kept now t ((t.setExp src (t.exptable src + lcExpAddAmt)).setExp dst
      ((t.setExp src (t.exptable src + lcExpAddAmt)).exptable dst + lcExpAddAmt)) := fun t =>
    kept_setExp.trans kept_setExp
  refine Kept.trans ?_ (hexp _)
  cases forMe with
  | false => exact .refl now s
  | true =>
    have hbonus : ∀ a b : Link, (if a.dst = dst then
        some { a with timeout := a.timeout + lcGenUseBonus } else none) = some b →
        b = { a with timeout := a.timeout + lcGenUseBonus } := by
      intro a b hab
      split_ifs at hab
      exact (Option.some_inj.1 hab).symm
    refine kept_setLinks (map_replaceF fun a b hab => ?_) fun hs l hl => ?_
    · rw [hbonus a b hab]
    · rcases mem_of_mem_replaceF hl with hl | ⟨a, ha, hab⟩
      · exact hs src l hl
      · rw [hbonus a l hab]
        exact hs src a ha

theorem buildRoute_spec (forMe : Bool) (route : Path)
    (h : (last :: hops).IsChain (Fresh now s)) (hlen : route.length + hops.length ≤ maxSrLen) :
    ∃ s' route', s.buildRoute now forMe last hops route = some (s', route') ∧ Kept now s s' ∧
      route'.nodes.map ID.addr = route.nodes.map ID.addr ++ hops := by
  induction hops generalizing s last route with
  | nil => exact ⟨s, route, rfl, .refl now s, (append_nil _).symm⟩
  | cons v hops ih =>
    obtain ⟨⟨l, hl, hexp⟩, hrest⟩ := isChain_cons_cons.1 h
    rw [length_cons] at hlen
    have happend : route.appendToPath (hopId v) = some { route with nodes := route.nodes ++ [hopId v] } :=
      if_pos (by omega)
    obtain ⟨s', route', hbuild, hkept, hnodes⟩ := ih (s := s.useLink last v forMe)
      ({ route with nodes := (route.nodes ++ [hopId v]).modify (route.length - 1) fun id =>
        { id with t := l.t, linkType := l.linkType, logStat := l.logStat } })
      (hrest.imp fun a b hab => hab.useLink last v forMe) (by
        unfold Path.length at *
        rw [length_modify, length_append, length_singleton]
        omega)
    refine ⟨s', route', ?_, (kept_useLink last v forMe).trans hkept, ?_⟩
    · unfold LinkCache.buildRoute
      rw [hl, happend]
      simp only [Option.bind_eq_bind, Option.bind_some, hexp]
      exact hbuild
    · rw [hnodes, map_modify (k := ID.addr) (f := fun id : ID =>
        { id with t := l.t, linkType := l.linkType, logStat := l.logStat }) fun _ => rfl,
        map_append, append_assoc]
      rfl

/-- What `findRoute` answers for `dest`, at a node `root` with the links `live`. -/
structure Answers (live : ℕ → ℕ → Prop) (root dest : ℕ) (found : Bool) (route' : Path) : Prop where
  found_iff : found = true ↔ dest ≠ root ∧ ∃ l, IsPath live root dest l ∧ l.length < maxSrLen
  path : found = true → IsPath live root dest (route'.nodes.map ID.addr)
  nodup : found = true → (route'.nodes.map ID.addr).Nodup
  shortest : found = true → ∀ l, IsPath live root dest l → route'.length ≤ l.length

theorem Answers.not_found {live : ℕ → ℕ → Prop} {dest : ℕ} {route' : Path}
    (h : dest = root ∨ ∀ l, IsPath live root dest l → maxSrLen ≤ l.length) :
    Answers live root dest false route' := by
  refine ⟨⟨fun hf => absurd hf Bool.false_ne_true, ?_⟩, fun hf => absurd hf Bool.false_ne_true,
    fun hf => absurd hf Bool.false_ne_true, fun hf => absurd hf Bool.false_ne_true⟩
  rintro ⟨hne, l, hl, hlt⟩
  rcases h with h | h
  · exact absurd h hne
  · exact absurd (h l hl) (not_le.2 hlt)

theorem IsPath.ne_nil {live : ℕ → ℕ → Prop} (h : IsPath live u v l) : 0 < l.length := by
  rcases l with - | ⟨a, l⟩
  · cases h.head
  · exact succ_pos _

theorem le_length_of_spans {dest : ℕ} (h : s.tree.Spans s.lcache root)
    (hl : IsPath (Live now s) root dest l) :
    (InRange dest ∧ s.tree.d dest < infinity) ∧ s.tree.d dest + 1 ≤ l.length := by
  obtain ⟨hseen, hle⟩ := h.le_of_walk (hl.congr fun a b hab => hab.has).walk
  have := IsPath.ne_nil hl
  exact ⟨hseen, by omega⟩

/-- The trace over the tree fails when there is no short route over live links, and else it gives the
path in the tree. -/
theorem trace_cases {dest : ℕ} (now : Time) (hroot : s.netId.addr = root)
    (h : s.tree.Spans s.lcache root) (hdest : InRange dest) :
    ∃ v rpath, s.trace maxSrLen dest [] = (v, rpath) ∧
      ((rpath.length < 2 ∨ s.tree.d v = infinity ∨ rpath.length ≥ maxSrLen) ∧
          (dest = root ∨ ∀ l, IsPath (Live now s) root dest l → maxSrLen ≤ l.length) ∨
        ¬(rpath.length < 2 ∨ s.tree.d v = infinity ∨ rpath.length ≥ maxSrLen) ∧ dest ≠ root ∧
          IsPath (Has s.lcache) root dest (root :: rpath.dropLast.reverse) ∧
          (root :: rpath.dropLast.reverse).Nodup ∧
          (root :: rpath.dropLast.reverse).length = s.tree.d dest + 1 ∧
          (root :: rpath.dropLast.reverse).length < maxSrLen) := by
  by_cases hseen : s.tree.d dest < infinity
  · obtain ⟨l, hl, hlen, -, hnodup, hall⟩ := h.exists_ancestry ⟨hdest, hseen⟩
    obtain ⟨hshort, hlong⟩ := trace_spec (s := s) maxSrLen []
      (hroot.symm ▸ hl) fun w hw => (hall w hw).2
    obtain ⟨hhead, hlast, hchain⟩ := hl.path
    by_cases hlt : l.length < maxSrLen
    · refine ⟨_, _, hshort hlt.le, ?_⟩
      rw [nil_append, length_reverse, hroot, dropLast_reverse, reverse_reverse]
      obtain ⟨hops, rfl⟩ : ∃ hops, l = root :: hops := by
        rcases l with - | ⟨a, hops⟩
        · cases hhead
        · exact ⟨hops, congrArg (· :: hops) (Option.some_inj.1 hhead)⟩
      rcases hops with - | ⟨a, hops⟩
      · have heq : root = dest := Option.some_inj.1 hlast
        exact .inl ⟨.inl one_lt_two, .inl heq.symm⟩
      · refine .inr ⟨?_, ?_, ⟨hhead, hlast, hchain⟩, hnodup, hlen, hlt⟩
        · have hzero := h.root_dist
          rw [length_cons, length_cons] at *
          rintro (hfew | hinf | hmany)
          · omega
          · rw [hzero] at hinf
            exact absurd hinf (by decide)
          · omega
        · rintro rfl
          have hzero := h.root_dist
          rw [hzero, length_cons, length_cons] at hlen
          omega
    · have hfull : (s.trace maxSrLen dest []).2.length = maxSrLen := by
        rcases (not_lt.1 hlt).eq_or_lt with heq | hlt
        · rw [hshort heq.ge, nil_append, length_reverse, heq]
        · rw [hlong hlt]
          exact zero_add _
      refine ⟨_, _, rfl, .inl ⟨.inr (.inr hfull.ge), .inr fun l' hl' => ?_⟩⟩
      have := (le_length_of_spans h hl').2
      omega
  · refine ⟨dest, [], ?_, .inl ⟨.inl zero_lt_two, .inr fun l hl => ?_⟩⟩
    · exact if_neg hseen
    · exact absurd (le_length_of_spans h hl).1.2 hseen

theorem findRoute_spec {dest : ID} (route : Path) (forMe : Bool) (h : Ok root T s) (hT : T ≤ now)
    (hdest : InRange dest.addr) (hfuel : s.linkCount < fuel) :
    ∃ s' found route', s.findRoute dest route forMe now fuel = some (s', found, route') ∧
      Ok root now s' ∧ Answers (Live now s) root dest.addr found route' := by
  induction fuel generalizing s T with
  | zero => exact absurd hfuel (not_lt_zero _)
  | succ fuel ih =>
    obtain ⟨s₁, hs₁, h₁, hcache, hspans⟩ : ∃ s₁,
        (if s.dirty ≤ now then s.dijkstra else some s) = some s₁ ∧ Ok root now s₁ ∧
          s₁.lcache = s.lcache ∧ s₁.tree.Spans s₁.lcache root := by
      split_ifs with hdirty
      · exact h.dijkstra now
      · exact ⟨s, rfl, h.kept hT (.refl now s), rfl, h.spans (hT.trans_lt (not_le.1 hdirty))⟩
    have hlive : Live now s = Live now s₁ := by
      unfold Live
      rw [hcache]
    have hcount : s₁.linkCount = s.linkCount := by
      unfold linkCount
      rw [hcache]
    rw [hlive]
    unfold LinkCache.findRoute
    rw [if_neg (not_lt.2 hdest.2), hs₁]
    dsimp only [Option.bind_eq_bind, Option.bind_some]
    obtain ⟨v, rpath, htrace, hcases⟩ := trace_cases now h₁.own hspans hdest
    rw [htrace]
    rcases hcases with ⟨hcond, hno⟩ | ⟨hcond, hne, hpath, hnodup, hlen, hlt⟩
    · rw [if_pos hcond]
      exact ⟨s₁, false, route, rfl, h₁, .not_found hno⟩
    · rw [if_neg hcond, h₁.own]
      generalize rpath.dropLast.reverse = hops at *
      obtain ⟨r, hr, hnone, hsome⟩ := firstExpired_spec now hpath.chain
      rw [hr, Option.bind_some]
      rcases r with - | ⟨u, w⟩
      · have hfresh := hnone rfl
        have hstart : route.reset.appendToPath (hopId root) =
            some { route.reset with nodes := [hopId root] } := rfl
        rw [hstart, Option.bind_some]
        obtain ⟨s', route', hbuild, hkept, hnodes⟩ := buildRoute_spec forMe
          { route.reset with nodes := [hopId root] } hfresh (by
            rw [length_cons] at hlt
            unfold Path.length
            rw [length_singleton]
            omega)
        rw [hbuild]
        have haddrs : route'.nodes.map ID.addr = root :: hops := hnodes
        have hlive : IsPath (Live now s₁) root dest.addr (root :: hops) :=
          ⟨hpath.head, hpath.last, hfresh.imp fun a b hab => hab.live h₁.plain⟩
        refine ⟨s', true, route', rfl, h₁.kept le_rfl hkept,
          ⟨fun _ => ⟨hne, _, hlive, hlt⟩, fun _ => rfl⟩, fun _ => haddrs ▸ hlive,
          fun _ => haddrs ▸ hnodup, fun _ l hl => ?_⟩
        have hmin := (le_length_of_spans hspans hl).2
        rw [← hlen, ← haddrs, length_map] at hmin
        exact hmin
      · obtain ⟨l, hl, hexp⟩ := hsome u w rfl
        obtain ⟨hmem, -⟩ := findLink_some hl
        have hu := (h₁.plain u l hmem).1
        have hless := linkCount_removeLink now hu hl
        have hremoved : Kept now s₁ (s₁.removeLink u w now) := kept_removeLink
        obtain ⟨s', found, route', hs', hok, hans⟩ :=
          ih (h₁.kept le_rfl hremoved) le_rfl (by omega)
        have hsame : Live now (s₁.removeLink u w now) = Live now s₁ :=
          funext fun a => funext fun b => propext (live_removeLink hl hexp a b)
        exact ⟨s', found, route', hs', hok, hsame ▸ hans⟩

/-- The addresses of an operation are those of nodes the cache has room for. -/
def InRangeOp : CacheOp → Prop
  | .addRoute route _ _ => ∀ id ∈ route.nodes, InRange id.addr
  | .noticeRouteUsed route _ _ => ∀ id ∈ route.nodes, InRange id.addr
  | .noticeDeadLink src dst _ => InRange src.addr ∧ InRange dst.addr
  | .findRoute dest _ _ => InRange dest.addr

variable {o : CacheOp} {ops : List (Time × CacheOp)} {as : List (Option (Bool × Path))}
  {rc : RouteCache} {tree : Tree}

theorem ok_init (tree : Tree) (hnet : InRange rc.netId.addr) (hT : 0 ≤ T) :
    Ok rc.netId.addr T (init rc tree) := by
  refine ⟨rfl, hnet, fun u l hl => absurd hl not_mem_nil, fun hlt => ?_⟩
  have hdirty : (init rc tree).dirty = -1 := rfl
  rw [hdirty] at hlt
  exact absurd (hT.trans_lt hlt) (by decide)

/-- An operation keeps a cache in order; only an overheard route with no current node aborts. -/
theorem Ok.step_cases (h : Ok root T s) (hT : T ≤ now) (ho : InRangeOp o) :
    (∃ p t whoFrom, o = .noticeRouteUsed p t whoFrom ∧ p.curIndex < 0 ∧
        machine.step s (now, o) = none) ∨
      ∃ s' a, machine.step s (now, o) = some (s', a) ∧ Ok root now s' := by
  have hnet : InRange s.netId.addr := h.own ▸ h.inRange
  cases o with
  | addRoute p t whoFrom =>
    obtain ⟨s', hs', hk⟩ := addRoute_spec now t whoFrom hnet ho
    exact .inr ⟨s', none, congrArg (Option.map (·, none)) hs', h.kept hT hk⟩
  | noticeRouteUsed p t whoFrom =>
    cases hr : s.preNoticeRouteUsed p t whoFrom with
    | none =>
      refine .inl ⟨p, t, whoFrom, rfl, ?_, ?_⟩
      · by_contra hidx
        obtain ⟨r, hr'⟩ := RouteCache.exists_preNoticeRouteUsed s.toRouteCache t whoFrom
          (not_lt.1 hidx)
        exact Option.some_ne_none r (hr'.symm.trans hr)
      · have habort : s.noticeRouteUsed p t whoFrom now = none := by
          unfold LinkCache.noticeRouteUsed
          rw [hr]
          rfl
        exact congrArg (Option.map (·, none)) habort
    | some r =>
      obtain ⟨s', hs', hk⟩ := noticeRouteUsed_spec now hnet ho hr
      exact .inr ⟨s', none, congrArg (Option.map (·, none)) hs', h.kept hT hk⟩
  | noticeDeadLink src dst t =>
    obtain ⟨s', hs', hk⟩ := noticeDeadLink_spec s now ho.1 ho.2
    exact .inr ⟨s', none, congrArg (Option.map (·, none)) hs', h.kept hT hk⟩
  | findRoute dest route forMe =>
    obtain ⟨s', found, route', hs', hok, -⟩ :=
      findRoute_spec route forMe h hT ho (lt_succ_self s.linkCount)
    refine .inr ⟨s', some (found, route'), ?_, hok⟩
    have hstep : machine.step s (now, .findRoute dest route forMe) =
        (s.findRoute dest route forMe now (s.linkCount + 1)).map fun r => (r.1, some r.2) := rfl
    rw [hstep, hs']
    rfl

theorem Ok.run (h : Ok root T s) (hops : ∀ o ∈ ops, InRangeOp o.2)
    (htimes : (T :: (ops.map Prod.fst ++ [now])).IsChain (· ≤ ·))
    (hrun : machine.run s ops = some (s', as)) : Ok root now s' := by
  induction ops generalizing s T as with
  | nil =>
    obtain ⟨rfl, -⟩ := Prod.mk.inj (Option.some_inj.1 hrun)
    exact h.kept (isChain_cons_cons.1 htimes).1 (.refl now s)
  | cons o ops ih =>
    obtain ⟨ho, hops⟩ := forall_mem_cons.1 hops
    obtain ⟨hT, htimes⟩ := isChain_cons_cons.1 htimes
    obtain ⟨⟨s₁, a⟩, hstep, hrest⟩ := Option.bind_eq_some_iff.1 hrun
    obtain ⟨⟨s₂, as'⟩, hrun', heq⟩ := Option.map_eq_some_iff.1 hrest
    obtain ⟨rfl, -⟩ := Prod.mk.inj heq
    rcases h.step_cases hT ho with ⟨-, -, -, -, -, hnone⟩ | ⟨s', a', hs', hok⟩
    · exact absurd (hnone.symm.trans hstep) (Option.some_ne_none _).symm
    · obtain ⟨rfl, -⟩ := Prod.mk.inj (Option.some_inj.1 (hs'.symm.trans hstep))
      exact ih hok hops htimes hrun'

theorem Ok.exists_run (h : Ok root T s) (hops : ∀ o ∈ ops, InRangeOp o.2)
    (hidx : ∀ p t whoFrom, .noticeRouteUsed p t whoFrom ∈ ops.map Prod.snd → 0 ≤ p.curIndex)
    (htimes : (T :: (ops.map Prod.fst ++ [now])).IsChain (· ≤ ·)) :
    ∃ s' as, machine.run s ops = some (s', as) := by
  induction ops generalizing s T with
  | nil => exact ⟨s, [], rfl⟩
  | cons o ops ih =>
    obtain ⟨ho, hops⟩ := forall_mem_cons.1 hops
    obtain ⟨hT, htimes⟩ := isChain_cons_cons.1 htimes
    rcases h.step_cases hT ho with ⟨p, t, whoFrom, hp, hlt, -⟩ | ⟨s₁, a, hs₁, hok⟩
    · exact absurd (hidx p t whoFrom (hp ▸ mem_cons_self)) (not_le.2 hlt)
    · obtain ⟨s', as, hrun⟩ := ih hok hops
        (fun p t whoFrom hmem => hidx p t whoFrom (mem_cons_of_mem _ hmem)) htimes
      exact ⟨s', a :: as, (machine.run_cons ops hs₁).trans (congrArg (Option.map _) hrun)⟩

/-- After operations at times that do not go back, `findRoute` answers with a shortest live route of
fewer than `maxSrLen` nodes exactly when there is one, however much more fuel than links it has. -/
theorem findRoute_shortest (hnet : InRange rc.netId.addr) (hops : ∀ o ∈ ops, InRangeOp o.2)
    (htimes : (0 :: (ops.map Prod.fst ++ [now])).IsChain (· ≤ ·))
    (hrun : machine.run (init rc tree) ops = some (s, as)) {dest : ID} (hdest : InRange dest.addr)
    (route : Path) (forMe : Bool) (hfuel : s.linkCount < fuel) :
    ∃ s' found route', s.findRoute dest route forMe now fuel = some (s', found, route') ∧
      Answers (Live now s) rc.netId.addr dest.addr found route' := by
  have hok := (ok_init tree hnet le_rfl).run hops htimes hrun
  obtain ⟨s', found, route', hs', -, hans⟩ := findRoute_spec route forMe hok le_rfl hdest hfuel
  exact ⟨s', found, route', hs', hans⟩

/-- Two routes are added, a third one is overheard, and a link fails before a search. -/
def sampleOps : List (Time × CacheOp) :=
  [(0, .addRoute (samplePath [1, 2, 3, 4] 0) 0 (.ofAddr 4 .ip)),
    (1, .addRoute (samplePath [1, 5, 4] 0) 1 (.ofAddr 4 .ip)),
    (1, .noticeRouteUsed (samplePath [6, 7, 2] 1) 1 (.ofAddr 6 .ip)),
    (2, .noticeDeadLink (.ofAddr 1 .ip) (.ofAddr 5 .ip) 2),
    (3, .findRoute (.ofAddr 4 .ip) (samplePath [] 0) true)]

theorem findRoute_shortest_sample : ∃ tree s as,
    machine.run (init sampleNode tree) sampleOps = some (s, as) ∧
      ∃ s' found route', s.findRoute (.ofAddr 7 .ip) (samplePath [] 0) false 4 (s.linkCount + 1) =
        some (s', found, route') ∧ Answers (Live 4 s) 1 7 found route' := by
  let tree : Tree := ⟨fun _ => 0, fun _ => 0, fun _ => 0, fun _ => false⟩
  have hnet : InRange sampleNode.netId.addr := ⟨by decide, by decide⟩
  have hops : ∀ o ∈ sampleOps, InRangeOp o.2 := by
    refine forall_mem_cons.2 ⟨?_, forall_mem_cons.2 ⟨?_, forall_mem_cons.2 ⟨?_,
      forall_mem_cons.2 ⟨?_, forall_mem_cons.2 ⟨?_, fun o h => absurd h not_mem_nil⟩⟩⟩⟩⟩
    all_goals unfold InRangeOp
    all_goals simp only [samplePath, forall_mem_map, ID.ofAddr, InRange]
    all_goals decide
  have htimes : (0 :: (sampleOps.map Prod.fst ++ [4])).IsChain (· ≤ ·) := by decide
  obtain ⟨s, as, hrun⟩ := (ok_init tree hnet le_rfl).exists_run hops
    (fun p t whoFrom hmem => by
      have hp : CacheOp.noticeRouteUsed p t whoFrom =
          .noticeRouteUsed (samplePath [6, 7, 2] 1) 1 (.ofAddr 6 .ip) := by
        simpa [sampleOps] using hmem
      cases hp
      decide) htimes
  exact ⟨tree, s, as, hrun, findRoute_shortest hnet hops htimes hrun ⟨by decide, by decide⟩ _ _
    (lt_succ_self _)⟩

end LinkCache

end Dsr

end Ns2
