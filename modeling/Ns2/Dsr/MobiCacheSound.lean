import Ns2.Dsr.CacheRoutes

/-! The routes in a `MobiCache` are sound in every run, and `findRoute` answers with a shortest of
them. -/

namespace Ns2

open List Nat

namespace Dsr

variable {rc : RouteCache} {F G : Key × Key → Prop} {dest : ID} {p route : Path} {n i index fuel : ℕ}

theorem findIdx_keys (h : p.nodes.findIdx? (·.eq dest) = some n) :
    p.keys[n]? = some dest.key ∧ ∀ m, p.keys[m]? = some dest.key → n ≤ m := by
  obtain ⟨hlt, hn, hfirst⟩ := findIdx?_eq_some_iff_getElem.1 h
  refine ⟨?_, fun m hm => not_lt.1 fun hlt' => hfirst m hlt' ?_⟩
  · rw [Path.keys, getElem?_map, getElem?_eq_getElem hlt]
    exact congrArg some (ID.eq_iff.1 hn)
  · rw [Path.keys, getElem?_map, getElem?_eq_getElem (hlt'.trans hlt)] at hm
    exact ID.eq_iff.2 (Option.some_inj.1 hm)

theorem findIdx_keys_none (h : p.nodes.findIdx? (·.eq dest) = none) : dest.key ∉ p.keys := by
  intro hmem
  obtain ⟨id, hid, hkey⟩ := mem_map.1 hmem
  have := findIdx?_eq_none_iff.1 h id hid
  rw [ID.eq_iff.2 hkey] at this
  cases this

namespace Cache

theorem searchRoute_spec (dest : ID) (index : ℕ) {I : ℕ → Prop} {l : List Path}
    (hskip : ∀ j p, l[j]? = some p → p.nodes.findIdx? (·.eq dest) = none → I (index + j) →
      I (index + j + 1)) (h : I index) :
    match searchRoute dest index l with
    | none => I (index + l.length)
    | some (n, p, i) => ∃ j, i = index + j ∧ l[j]? = some p ∧
        p.nodes.findIdx? (·.eq dest) = some n ∧ I i := by
  induction l generalizing index with
  | nil => exact h
  | cons p l ih =>
    unfold searchRoute
    cases hp : p.nodes.findIdx? (·.eq dest) with
    | some n => exact ⟨0, rfl, rfl, hp, h⟩
    | none =>
      have hnext := ih (index + 1) (fun j q hq hnone hI => by
        have := hskip (j + 1) q hq hnone
        rw [← add_assoc, add_right_comm] at this
        exact this hI) (hskip 0 p rfl hp h)
      cases hs : searchRoute dest (index + 1) l with
      | none =>
        rw [hs] at hnext
        rw [length_cons, ← add_assoc, add_right_comm]
        exact hnext
      | some r =>
        rw [hs] at hnext
        obtain ⟨j, hj, hq, hn, hI⟩ := hnext
        exact ⟨j + 1, by omega, hq, hn, hI⟩

end Cache

namespace MobiCache

theorem search_spec {c : Cache} (note : ℕ → Path → ℕ → Found → Found) (fuel : ℕ)
    {I : ℕ → Found → Prop} {f : Found}
    (hskip : ∀ j p f, c.cache[j]? = some p → p.nodes.findIdx? (·.eq dest) = none →
      I j f → I (j + 1) f)
    (hnote : ∀ j p n f, c.cache[j]? = some p → p.nodes.findIdx? (·.eq dest) = some n → I j f →
      I (j + 1) (note n p j f))
    (hI : I index f) (hindex : index ≤ c.size) (hfuel : c.size - index < fuel) :
    ∃ f', search dest note c fuel index f = some f' ∧ I c.size f' := by
  induction fuel generalizing index f with
  | zero => exact absurd hfuel (not_lt_zero _)
  | succ fuel ih =>
    have hspec := Cache.searchRoute_spec dest index (I := fun j => I j f)
      (l := c.cache.drop index) (fun j p hp => by
        rw [List.getElem?_drop] at hp
        exact hskip (index + j) p f hp) hI
    unfold search
    cases hs : Cache.searchRoute dest index (c.cache.drop index) with
    | none =>
      rw [hs, length_drop] at hspec
      have hsize : index + (c.cache.length - index) = c.size := by
        unfold Cache.size at *
        omega
      rw [hsize] at hspec
      exact ⟨f, rfl, hspec⟩
    | some r =>
      obtain ⟨n, p, j⟩ := r
      rw [hs] at hspec
      obtain ⟨k, rfl, hp, hn, hIj⟩ := hspec
      rw [List.getElem?_drop] at hp
      have hlt : index + k < c.size := (List.getElem?_eq_some_iff.1 hp).1
      exact ih (hnote _ _ _ _ hp hn hIj) hlt (by omega)

/-- The best route to `dest` among those with `S` is noted, with `secondary` as the place of one that
is in the secondary cache only. -/
structure Best (dest : ID) (route : Path) (secondary : List Path) (S : Path → Prop) (f : Found) :
    Prop where
  none : f.minCache = 0 → f.minLength = maxSrLen + 1 ∧ f.route = route ∧ ∀ p, S p → dest.key ∉ p.keys
  some : f.minCache ≠ 0 → S f.route ∧ f.route.keys[f.minLength]? = some dest.key
  least : ∀ p n, S p → p.keys[n]? = .some dest.key → f.minLength ≤ n ∧ f.minCache ≠ 0
  index : f.minCache = 1 → secondary[f.minIndex.toNat]? = .some f.route

variable {secondary : List Path} {S S' : Path → Prop} {f : Found}

theorem Best.skip (h : Best dest route secondary S f) (hp : dest.key ∉ p.keys)
    (hS : ∀ q, S' q ↔ S q ∨ q = p) : Best dest route secondary S' f := by
  refine ⟨fun hf => ?_, fun hf => ?_, fun q n hq hn => ?_, h.index⟩
  · obtain ⟨hlen, hroute, hall⟩ := h.none hf
    refine ⟨hlen, hroute, fun q hq => ?_⟩
    rcases (hS q).1 hq with hq | rfl
    · exact hall q hq
    · exact hp
  · obtain ⟨hroute, hdest⟩ := h.some hf
    exact ⟨(hS _).2 (.inl hroute), hdest⟩
  · rcases (hS q).1 hq with hq | rfl
    · exact h.least q n hq hn
    · exact absurd (mem_of_getElem? hn) hp

theorem Best.note (h : Best dest route secondary S f) (hp : p.nodes.findIdx? (·.eq dest) = .some n)
    (hlen : p.keys.length ≤ maxSrLen) (hS : ∀ q, S' q ↔ S q ∨ q = p) {f' : Found}
    (hless : n < f.minLength → f'.route = p ∧ f'.minLength = n)
    (hmore : ¬n < f.minLength → f'.route = f.route ∧ f'.minLength = f.minLength)
    (hfound : n < f.minLength ∨ f.minCache ≠ 0 → f'.minCache ≠ 0)
    (hindex : f'.minCache = 1 → secondary[f'.minIndex.toNat]? = .some f'.route) :
    Best dest route secondary S' f' := by
  obtain ⟨hn, hfirst⟩ := findIdx_keys hp
  have hnlt : n < p.keys.length := (List.getElem?_eq_some_iff.1 hn).1
  have hne : f'.minCache ≠ 0 := by
    refine hfound (or_iff_not_imp_right.2 fun hzero => ?_)
    rw [(h.none (not_not.1 hzero)).1]
    omega
  refine ⟨fun hf => absurd hf hne, fun _ => ?_, fun q m hq hm => ⟨?_, hne⟩, hindex⟩
  · by_cases hlt : n < f.minLength
    · rw [(hless hlt).1, (hless hlt).2]
      exact ⟨(hS p).2 (.inr rfl), hn⟩
    · have hf : f.minCache ≠ 0 := by
        intro hzero
        rw [(h.none hzero).1] at hlt
        omega
      rw [(hmore hlt).1, (hmore hlt).2]
      exact ⟨(hS _).2 (.inl (h.some hf).1), (h.some hf).2⟩
  · have hle : f'.minLength ≤ n ∧ f'.minLength ≤ f.minLength := by
      by_cases hlt : n < f.minLength
      · rw [(hless hlt).2]
        exact ⟨le_rfl, hlt.le⟩
      · rw [(hmore hlt).2]
        exact ⟨not_lt.1 hlt, le_rfl⟩
    rcases (hS q).1 hq with hq | rfl
    · exact hle.2.trans (h.least q m hq hm).1
    · exact hle.1.trans (hfirst m hm)

theorem Best.congr (h : Best dest route secondary S f) (hS : ∀ q, S' q ↔ S q) :
    Best dest route secondary S' f :=
  ⟨fun hf => ⟨(h.none hf).1, (h.none hf).2.1, fun p hp => (h.none hf).2.2 p ((hS p).1 hp)⟩,
    fun hf => ⟨(hS _).2 (h.some hf).1, (h.some hf).2⟩, fun p n hp => h.least p n ((hS p).1 hp),
    h.index⟩

theorem exists_lt_succ_iff {l : List Path} {j : ℕ} (hp : l[j]? = some p) (q : Path) :
    (∃ i < j + 1, l[i]? = some q) ↔ (∃ i < j, l[i]? = some q) ∨ q = p := by
  constructor
  · rintro ⟨i, hi, hq⟩
    rcases Nat.lt_succ_iff_lt_or_eq.1 hi with hi | rfl
    · exact .inl ⟨i, hi, hq⟩
    · exact .inr (Option.some_inj.1 (hq.symm.trans hp))
  · rintro (⟨i, hi, hq⟩ | rfl)
    · exact ⟨i, lt_succ_of_lt hi, hq⟩
    · exact ⟨j, lt_succ_self j, hp⟩

theorem exists_lt_length_iff {l : List Path} (q : Path) : (∃ i < l.length, l[i]? = some q) ↔ q ∈ l := by
  rw [List.mem_iff_getElem?]
  refine ⟨fun ⟨i, _, hq⟩ => ⟨i, hq⟩, fun ⟨i, hq⟩ => ⟨i, (List.getElem?_eq_some_iff.1 hq).1, hq⟩⟩

/-- The cached routes. -/
def routes (m : MobiCache) : List Path := m.primary.cache ++ m.secondary.cache

/-- The caches of a node hold sound routes over links with `F`. -/
structure Sound (rc : RouteCache) (F : Key × Key → Prop) (m : MobiCache) : Prop where
  base : m.toRouteCache = rc
  primary : m.primary.Holds 30 (rc.Sound F)
  secondary : m.secondary.Holds 64 (rc.Sound F)

/-- `found` and `route` answer whether there is a cached route to `dest`. -/
structure Answers (m : MobiCache) (dest : ID) (found : Bool) (route : Path) : Prop where
  found_iff : found = true ↔ ∃ p ∈ m.routes, dest.key ∈ p.keys
  own : found = true → ∃ k, route.keys.head? = some k ∧ m.IsOwn k
  last : found = true → route.keys.getLast? = some dest.key
  cached : found = true → ∃ p ∈ m.routes, route.keys <+: p.keys
  least : found = true → ∀ p ∈ m.routes, ∀ n, p.keys[n]? = some dest.key →
    route.keys.length ≤ n + 1

variable {m m' : MobiCache} {t : Time} {whoFrom src dst : ID}

theorem Sound.of_mem (h : m.Sound rc F) (hp : p ∈ m.routes) : rc.Sound F p.keys := by
  rcases mem_append.1 hp with hp | hp
  · exact h.primary.routes p hp
  · exact h.secondary.routes p hp

theorem Sound.mono (h : m.Sound rc F) (hFG : ∀ l, F l → G l) : m.Sound rc G :=
  ⟨h.base, h.primary.mono fun _ hks => hks.mono fun l _ => hFG l,
    h.secondary.mono fun _ hks => hks.mono fun l _ => hFG l⟩

theorem sound_init : (init rc).Sound rc F :=
  ⟨rfl, Cache.holds_init (by decide) .nil, Cache.holds_init (by decide) .nil⟩

section

variable (h : m.Sound rc F)
include h

theorem Sound.addRoute (t : Time) (whoFrom : ID)
    (hnet : rc.netId.eq invalidAddr = false) (hp : RouteCache.Takes p) (hlinks : ∀ l ∈ links p.keys, F l) :
    ∃ m', m.addRoute p t whoFrom = some m' ∧ m'.Sound rc F := by
  obtain ⟨r, hr, hspec⟩ := RouteCache.preAddRoute_spec t whoFrom hnet hp
  rw [← h.base] at hr
  unfold MobiCache.addRoute
  rw [hr]
  cases r with
  | none => exact ⟨m, rfl, h⟩
  | some rt =>
    have hrt := (hspec rt rfl).1.mono (G := F) fun l _ hl => hlinks l hl
    have hlen := hrt.short
    rw [Path.length_keys] at hlen
    obtain ⟨c, n, hc, hholds, -⟩ := h.primary.addRoute hrt hlen
    refine ⟨{ m with primary := c }, ?_, h.base, hholds, h.secondary⟩
    dsimp only [Option.bind_eq_bind, Option.bind_some]
    rw [hc]
    rfl

theorem Sound.noticeRouteUsed (hp : RouteCache.Takes p)
    (hlinks : ∀ l, rc.Shows p l → F l) {r : Option Path}
    (hr : rc.preNoticeRouteUsed p t whoFrom = some r) :
    ∃ m', m.noticeRouteUsed p t whoFrom = some m' ∧ m'.Sound rc F := by
  have hr' := hr
  rw [← h.base] at hr'
  unfold MobiCache.noticeRouteUsed
  rw [hr']
  cases r with
  | none => exact ⟨m, rfl, h⟩
  | some stub =>
    have hstub := (RouteCache.preNoticeRouteUsed_spec hp hr).1.mono (G := F) fun l _ hl => hlinks l hl
    have hlen := hstub.short
    rw [Path.length_keys] at hlen
    obtain ⟨c, n, hc, hholds, -⟩ := h.secondary.addRoute hstub hlen
    refine ⟨{ m with secondary := c }, ?_, h.base, h.primary, hholds⟩
    dsimp only [Option.bind_eq_bind, Option.bind_some]
    rw [hc]
    rfl

theorem Sound.noticeDeadLink (src dst : ID) :
    ∃ m', m.noticeDeadLink src dst = some m' ∧
      m'.Sound rc fun l => F l ∧ l ≠ (src.key, dst.key) := by
  obtain ⟨c, hc, hprimary⟩ := h.primary.noticeDeadLink src dst
  obtain ⟨c', hc', hsecondary⟩ := h.secondary.noticeDeadLink src dst
  refine ⟨{ m with primary := c, secondary := c' }, ?_, h.base, hprimary, hsecondary⟩
  unfold MobiCache.noticeDeadLink
  rw [hc, hc']
  rfl

theorem Sound.promote (hp : m.secondary.cache[index]? = some p) :
    ∃ m', m.promote index = some m' ∧ m'.Sound rc F := by
  have hsound := h.secondary.routes p (mem_of_getElem? hp)
  have hlen := hsound.short
  rw [Path.length_keys] at hlen
  obtain ⟨c, n, hc, hholds, hn⟩ := h.primary.addRoute hsound hlen
  refine ⟨⟨m.toRouteCache, c, ⟨m.secondary.cache.set index ⟨[], p.curIndex, p.owner⟩,
    m.secondary.victimPtr⟩⟩, ?_, h.base, hholds, h.secondary.set _ .nil⟩
  unfold MobiCache.promote
  rw [hp, Option.bind_eq_bind, Option.bind_some, hc]
  dsimp only [Option.bind_eq_bind, Option.bind_some]
  have hcut : ∀ {q : Path}, q.setLength 0 = some ⟨[], q.curIndex, q.owner⟩ := rfl
  by_cases hpos : 0 < n
  · have hset : p.setLength n = some ⟨p.nodes.take n, p.curIndex, p.owner⟩ :=
      if_pos (hn.trans hlen)
    rw [if_pos hpos, hset, Option.bind_some, hcut]
    rfl
  · rw [if_neg hpos, Option.bind_some, hcut]
    rfl

theorem Sound.exists_best (dest : ID) (route : Path) : ∃ f f',
    search dest notePrimary m.primary (m.primary.size + 1) 0 ⟨route, -1, maxSrLen + 1, 0⟩ = some f ∧
      search dest noteSecondary m.secondary (m.secondary.size + 1) 0 f = some f' ∧
      Best dest route m.secondary.cache (· ∈ m.routes) f' := by
  have hstart : Best dest route m.secondary.cache (fun p => ∃ i < 0, m.primary.cache[i]? = some p)
      ⟨route, -1, maxSrLen + 1, 0⟩ :=
    ⟨fun _ => ⟨rfl, rfl, fun p ⟨i, hi, _⟩ => absurd hi (not_lt_zero i)⟩,
      fun hf => absurd rfl hf, fun p n ⟨i, hi, _⟩ => absurd hi (not_lt_zero i),
      fun hf => absurd hf zero_ne_one⟩
  obtain ⟨f, hf, hbest⟩ := search_spec notePrimary (m.primary.size + 1)
    (I := fun j f => Best dest route m.secondary.cache
      (fun p => ∃ i < j, m.primary.cache[i]? = some p) f)
    (fun j p f hp hnone hI => hI.skip (findIdx_keys_none hnone) (exists_lt_succ_iff hp))
    (fun j p n f hp hn hI => by
      have hlen := (h.primary.routes p (mem_of_getElem? hp)).short
      refine hI.note hn hlen (exists_lt_succ_iff hp) (fun hlt => ?_) (fun hlt => ?_) (fun _ => ?_)
        fun hf => ?_
      · unfold notePrimary
        simp only [if_pos hlt, and_self]
      · unfold notePrimary
        simp only [if_neg hlt, and_self]
      · unfold notePrimary
        dsimp only
        split_ifs <;> exact succ_ne_zero 1
      · have htwo : (notePrimary n p j f).minCache = 2 := by
          unfold notePrimary
          dsimp only
          split_ifs <;> rfl
        rw [htwo] at hf
        exact absurd hf (by decide))
    hstart (zero_le _) (lt_succ_self _)
  have hmid : Best dest route m.secondary.cache
      (fun p => p ∈ m.primary.cache ∨ ∃ i < 0, m.secondary.cache[i]? = some p) f := by
    refine hbest.congr fun q => ?_
    rw [← exists_lt_length_iff]
    exact or_iff_left fun ⟨i, hi, _⟩ => not_lt_zero i hi
  have hsucc : ∀ {j p}, m.secondary.cache[j]? = some p → ∀ q : Path,
      (q ∈ m.primary.cache ∨ ∃ i < j + 1, m.secondary.cache[i]? = some q) ↔
        (q ∈ m.primary.cache ∨ ∃ i < j, m.secondary.cache[i]? = some q) ∨ q = p := by
    intro j p hp q
    rw [exists_lt_succ_iff hp, or_assoc]
  obtain ⟨f', hf', hbest'⟩ := search_spec noteSecondary (m.secondary.size + 1)
    (I := fun j f => Best dest route m.secondary.cache
      (fun p => p ∈ m.primary.cache ∨ ∃ i < j, m.secondary.cache[i]? = some p) f)
    (fun j p f hp hnone hI => hI.skip (findIdx_keys_none hnone) (hsucc hp))
    (fun j p n f hp hn hI => by
      have hlen := (h.secondary.routes p (mem_of_getElem? hp)).short
      unfold noteSecondary
      refine hI.note hn hlen (hsucc hp) (fun hlt => ?_) (fun hlt => ?_) (fun hor => ?_) fun hf => ?_
      · simp only [if_pos hlt, and_self]
      · simp only [if_neg hlt, and_self]
      · split_ifs with hlt
        · exact one_ne_zero
        · exact hor.resolve_left hlt
      · split_ifs at hf ⊢ with hlt
        · exact hp
        · exact hI.index hf)
    hmid (zero_le _) (lt_succ_self _)
  refine ⟨f, f', hf, hf', hbest'.congr fun q => ?_⟩
  rw [routes, mem_append, ← exists_lt_length_iff (l := m.secondary.cache)]
  rfl

theorem Sound.findRoute (hnet : rc.netId.eq invalidAddr = false) (dest : ID)
    (route : Path) (forMe : Bool) :
    ∃ m' found route', m.findRoute dest route forMe = some (m', found, route') ∧ m'.Sound rc F ∧
      m.Answers dest found route' := by
  obtain ⟨f, f', hf, hf', hbest⟩ := h.exists_best dest route
  have hpromote : ∃ m', (if f'.minCache = 1 ∧ forMe then m.promote f'.minIndex.toNat else some m) =
      some m' ∧ m'.Sound rc F := by
    split_ifs with hif
    · exact h.promote (hbest.index hif.1)
    · exact ⟨m, rfl, h⟩
  obtain ⟨m', hm', hsound⟩ := hpromote
  have hnet' : m.netId.eq invalidAddr = false := by
    rw [h.base]
    exact hnet
  unfold MobiCache.findRoute
  rw [hnet', if_neg Bool.false_ne_true, hf]
  dsimp only [Option.bind_eq_bind, Option.bind_some]
  rw [hf']
  dsimp only [Option.bind_some]
  rw [hm']
  dsimp only [Option.bind_some]
  by_cases hfound : f'.minCache = 0
  · rw [if_neg (not_not.2 hfound)]
    refine ⟨m', false, f'.route, rfl, hsound, ⟨?_, ?_, ?_, ?_, ?_⟩⟩
    · refine ⟨fun hf => absurd hf (by decide), fun ⟨p, hp, hdest⟩ => ?_⟩
      exact absurd hdest ((hbest.none hfound).2.2 p hp)
    all_goals exact fun hf => absurd hf (by decide)
  · rw [if_pos hfound]
    obtain ⟨hmem, hdest⟩ := hbest.some hfound
    have hroute := h.of_mem hmem
    have hlt : f'.minLength < f'.route.keys.length := (List.getElem?_eq_some_iff.1 hdest).1
    have hshort := hroute.short
    have hset : f'.route.setLength (f'.minLength + 1) =
        some { f'.route with nodes := f'.route.nodes.take (f'.minLength + 1) } := if_pos (by omega)
    have hkeys : ({ f'.route with nodes := f'.route.nodes.take (f'.minLength + 1) } : Path).keys =
        f'.route.keys.take (f'.minLength + 1) := map_take
    refine ⟨m', true, _, by rw [hset]; rfl, hsound, ⟨?_, fun _ => ?_, fun _ => ?_, fun _ => ?_,
      fun _ p hp n hn => ?_⟩⟩
    · exact ⟨fun _ => ⟨_, hmem, mem_of_getElem? hdest⟩, fun _ => rfl⟩
    · refine ⟨f'.route.keys[0], ?_, ?_⟩
      · rw [hkeys, head?_take, if_neg (succ_ne_zero _), head?_eq_getElem?]
        exact getElem?_eq_getElem (by omega)
      · rw [MobiCache.Sound.base h]
        refine hroute.own _ ?_
        rw [head?_eq_getElem?]
        exact getElem?_eq_getElem (by omega)
    · rw [hkeys, take_add_one, hdest]
      exact getLast?_concat
    · exact ⟨_, hmem, hkeys ▸ take_prefix _ _⟩
    · rw [hkeys, length_take]
      have := (hbest.least p n hp hn).1
      omega

end

end MobiCache

namespace CacheOp

/-- The route of the operation is one that a cache takes. -/
def Takes : CacheOp → Prop
  | addRoute p _ _ => RouteCache.Takes p
  | noticeRouteUsed p _ _ => RouteCache.Takes p
  | _ => True

/-- The operation adds a route with the link. -/
def Adds (rc : RouteCache) (l : Key × Key) : CacheOp → Prop
  | addRoute p _ _ => l ∈ links p.keys
  | noticeRouteUsed p _ _ => rc.Shows p l
  | _ => False

/-- The operation reports that the link is dead. -/
def Kills (l : Key × Key) : CacheOp → Prop
  | noticeDeadLink src dst _ => l = (src.key, dst.key)
  | _ => False

/-- A route with the link was added, and since then the link was not reported dead. -/
def AddedSince (rc : RouteCache) (ops : List CacheOp) (l : Key × Key) : Prop :=
  ∃ pre o post, ops = pre ++ o :: post ∧ o.Adds rc l ∧ ∀ o' ∈ post, ¬o'.Kills l

variable {ops : List CacheOp} {o : CacheOp} {l : Key × Key}

theorem AddedSince.snoc (h : AddedSince rc ops l) (ho : ¬o.Kills l) : AddedSince rc (ops ++ [o]) l := by
  obtain ⟨pre, o', post, rfl, hadds, hpost⟩ := h
  refine ⟨pre, o', post ++ [o], by simp, hadds, fun o'' ho'' => ?_⟩
  rcases mem_append.1 ho'' with ho'' | ho''
  · exact hpost o'' ho''
  · rwa [mem_singleton.1 ho'']

theorem addedSince_of_adds (h : o.Adds rc l) : AddedSince rc (ops ++ [o]) l :=
  ⟨ops, o, [], rfl, h, fun _ h => absurd h not_mem_nil⟩

end CacheOp

namespace MobiCache

open CacheOp

variable {m m' : MobiCache} {ops pre : List CacheOp} {o : CacheOp}

theorem Sound.step (h : m.Sound rc (AddedSince rc pre)) (hnet : rc.netId.eq invalidAddr = false)
    (ho : o.Takes) {a : Option (Bool × Path)} (hm : machine.step m o = some (m', a)) :
    m'.Sound rc (AddedSince rc (pre ++ [o])) := by
  cases o with
  | addRoute p t whoFrom =>
    have hlater := h.mono fun l hl => hl.snoc (o := .addRoute p t whoFrom) id
    obtain ⟨m₁, hm₁, hsound⟩ := hlater.addRoute t whoFrom hnet ho fun l hl =>
      addedSince_of_adds hl
    have hstep : machine.step m (.addRoute p t whoFrom) =
        (m.addRoute p t whoFrom).map (·, none) := rfl
    rw [hstep, hm₁] at hm
    obtain ⟨rfl, -⟩ := Prod.mk.inj (Option.some_inj.1 hm)
    exact hsound
  | noticeRouteUsed p t whoFrom =>
    have hlater := h.mono fun l hl => hl.snoc (o := .noticeRouteUsed p t whoFrom) id
    have hstep : machine.step m (.noticeRouteUsed p t whoFrom) =
        (m.noticeRouteUsed p t whoFrom).map (·, none) := rfl
    obtain ⟨_, hm₁, -⟩ := Option.map_eq_some_iff.1 (hstep.symm.trans hm)
    obtain ⟨r, hr, -⟩ := Option.bind_eq_some_iff.1 hm₁
    rw [h.base] at hr
    obtain ⟨m₁, hm₁, hsound⟩ := hlater.noticeRouteUsed ho (fun l hl => addedSince_of_adds hl) hr
    rw [hstep, hm₁] at hm
    obtain ⟨rfl, -⟩ := Prod.mk.inj (Option.some_inj.1 hm)
    exact hsound
  | noticeDeadLink src dst t =>
    obtain ⟨m₁, hm₁, hsound⟩ := h.noticeDeadLink src dst
    have hstep : machine.step m (.noticeDeadLink src dst t) =
        (m.noticeDeadLink src dst).map (·, none) := rfl
    rw [hstep, hm₁] at hm
    obtain ⟨rfl, -⟩ := Prod.mk.inj (Option.some_inj.1 hm)
    exact hsound.mono fun l hl => hl.1.snoc hl.2
  | findRoute dest route forMe =>
    have hlater := h.mono fun l hl => hl.snoc (o := .findRoute dest route forMe) id
    obtain ⟨m₁, found, route', hm₁, hsound, -⟩ :=
      hlater.findRoute hnet dest route forMe
    have hstep : machine.step m (.findRoute dest route forMe) =
        (m.findRoute dest route forMe).map fun r => (r.1, some r.2) := rfl
    rw [hstep, hm₁] at hm
    obtain ⟨rfl, -⟩ := Prod.mk.inj (Option.some_inj.1 hm)
    exact hsound

theorem Sound.run (h : m.Sound rc (AddedSince rc pre)) (hnet : rc.netId.eq invalidAddr = false)
    (hops : ∀ o ∈ ops, o.Takes) {as : List (Option (Bool × Path))}
    (hm : machine.run m ops = some (m', as)) : m'.Sound rc (AddedSince rc (pre ++ ops)) := by
  induction ops generalizing m pre as with
  | nil =>
    obtain ⟨rfl, -⟩ := Prod.mk.inj (Option.some_inj.1 hm)
    rwa [append_nil]
  | cons o ops ih =>
    obtain ⟨ho, hops⟩ := forall_mem_cons.1 hops
    obtain ⟨⟨m₁, a⟩, hstep, hrest⟩ := Option.bind_eq_some_iff.1 hm
    obtain ⟨⟨m₂, as'⟩, hrun, heq⟩ := Option.map_eq_some_iff.1 hrest
    obtain ⟨rfl, -⟩ := Prod.mk.inj heq
    have := ih (h.step hnet ho hstep) hops hrun
    rwa [append_assoc] at this

/-- No operation aborts, unless it is about an overheard route with no current node. -/
theorem Sound.exists_step (h : m.Sound rc F) (hnet : rc.netId.eq invalidAddr = false)
    (ho : o.Takes) (hidx : ∀ p t whoFrom, o = .noticeRouteUsed p t whoFrom → 0 ≤ p.curIndex) :
    ∃ m' a, machine.step m o = some (m', a) ∧ m'.Sound rc fun _ => True := by
  have hall := h.mono (G := fun _ => True) fun _ _ => trivial
  cases o with
  | addRoute p t whoFrom =>
    obtain ⟨m₁, hm₁, hsound⟩ := hall.addRoute t whoFrom hnet ho
      fun _ _ => trivial
    exact ⟨m₁, none, congrArg (Option.map (·, none)) hm₁, hsound⟩
  | noticeRouteUsed p t whoFrom =>
    obtain ⟨r, hr⟩ := RouteCache.exists_preNoticeRouteUsed rc t whoFrom
      (hidx p t whoFrom rfl)
    obtain ⟨m₁, hm₁, hsound⟩ := hall.noticeRouteUsed ho (fun _ _ => trivial) hr
    exact ⟨m₁, none, congrArg (Option.map (·, none)) hm₁, hsound⟩
  | noticeDeadLink src dst t =>
    obtain ⟨m₁, hm₁, hsound⟩ := hall.noticeDeadLink src dst
    exact ⟨m₁, none, congrArg (Option.map (·, none)) hm₁, hsound.mono fun _ _ => trivial⟩
  | findRoute dest route forMe =>
    obtain ⟨m₁, found, route', hm₁, hsound, -⟩ :=
      hall.findRoute hnet dest route forMe
    refine ⟨m₁, some (found, route'), ?_, hsound⟩
    have hstep : machine.step m (.findRoute dest route forMe) =
        (m.findRoute dest route forMe).map fun r => (r.1, some r.2) := rfl
    rw [hstep, hm₁]
    rfl

theorem exists_run (hnet : rc.netId.eq invalidAddr = false) (hops : ∀ o ∈ ops, o.Takes)
    (hidx : ∀ p t whoFrom, CacheOp.noticeRouteUsed p t whoFrom ∈ ops → 0 ≤ p.curIndex)
    (h : m.Sound rc fun _ => True) : ∃ m' as, machine.run m ops = some (m', as) := by
  induction ops generalizing m with
  | nil => exact ⟨m, [], rfl⟩
  | cons o ops ih =>
    obtain ⟨ho, hops⟩ := forall_mem_cons.1 hops
    obtain ⟨m₁, a, hstep, hsound⟩ := h.exists_step hnet ho fun p t whoFrom heq =>
      hidx p t whoFrom (heq ▸ mem_cons_self)
    obtain ⟨m', as, hrun⟩ := ih hops
      (fun p t whoFrom hmem => hidx p t whoFrom (mem_cons_of_mem o hmem)) hsound
    refine ⟨m', a :: as, ?_⟩
    rw [Machine.run_cons _ _ hstep, hrun]
    rfl

/-- After every run the cached routes are sound over links that were added and not reported dead
since, and `findRoute` finds a shortest of them. -/
theorem run_sound (hnet : rc.netId.eq invalidAddr = false) (hops : ∀ o ∈ ops, o.Takes)
    {as : List (Option (Bool × Path))} (hm : machine.run (init rc) ops = some (m, as)) :
    (∀ p ∈ m.routes, rc.Sound (AddedSince rc ops) p.keys) ∧
      ∀ dest route forMe, ∃ m' found route', m.findRoute dest route forMe = some (m', found, route') ∧
        m.Answers dest found route' := by
  have hsound : m.Sound rc (AddedSince rc ([] ++ ops)) := sound_init.run hnet hops hm
  refine ⟨fun p hp => hsound.of_mem hp, fun dest route forMe => ?_⟩
  obtain ⟨m', found, route', hm', -, hanswers⟩ := hsound.findRoute hnet dest route forMe
  exact ⟨m', found, route', hm', hanswers⟩

/-- A route is added, one is overheard, a link fails and a route is promoted. -/
def sampleOps : List CacheOp :=
  [.addRoute (samplePath [1, 2, 3, 4] 0) 0 (.ofAddr 4 .ip),
    .noticeRouteUsed (samplePath [5, 6, 2] 1) 1 (.ofAddr 5 .ip),
    .noticeDeadLink (.ofAddr 3 .ip) (.ofAddr 4 .ip) 2,
    .findRoute (.ofAddr 6 .ip) (samplePath [] 0) true]

theorem run_sound_sample : ∃ m as, machine.run (init sampleNode) sampleOps = some (m, as) ∧
    (∀ p ∈ m.routes, sampleNode.Sound (AddedSince sampleNode sampleOps) p.keys) ∧
    ∀ dest route forMe, ∃ m' found route',
      m.findRoute dest route forMe = some (m', found, route') ∧ m.Answers dest found route' := by
  have hops : ∀ o ∈ sampleOps, o.Takes := by
    refine forall_mem_cons.2 ⟨⟨by decide, by decide, by decide⟩, ?_⟩
    refine forall_mem_cons.2 ⟨⟨by decide, by decide, by decide⟩, ?_⟩
    exact forall_mem_cons.2 ⟨trivial, forall_mem_cons.2 ⟨trivial, fun _ h =>
      absurd h not_mem_nil⟩⟩
  have hnet : sampleNode.netId.eq invalidAddr = false := rfl
  obtain ⟨m, as, hrun⟩ := exists_run (m := init sampleNode) hnet hops
    (fun p t whoFrom hmem => by
      have hp : CacheOp.noticeRouteUsed p t whoFrom =
          .noticeRouteUsed (samplePath [5, 6, 2] 1) 1 (.ofAddr 5 .ip) := by
        simpa [sampleOps] using hmem
      cases hp
      decide) sound_init
  exact ⟨m, as, hrun, run_sound rfl hops hrun⟩

end MobiCache

end Dsr

end Ns2
