import Ns2.Dsr.LinkTree

/-! What the operations of a `LinkCache` keep: the links stay plain, and a tree that is not dirty spans
them. -/

namespace Ns2

open List

namespace Dsr

section Replace

variable {α β : Type*} {g : α → Option α} {L : List α} {x : α}

theorem mem_of_mem_replaceF (h : x ∈ L.replaceF g) : x ∈ L ∨ ∃ y ∈ L, g y = some x := by
  induction L with
  | nil => cases h
  | cons a L ih =>
    rw [replaceF_cons] at h
    cases ha : g a with
    | some b =>
      rw [ha] at h
      rcases mem_cons.1 h with rfl | h
      · exact .inr ⟨a, mem_cons_self, ha⟩
      · exact .inl (mem_cons_of_mem a h)
    | none =>
      rw [ha] at h
      rcases mem_cons.1 h with rfl | h
      · exact .inl mem_cons_self
      · rcases ih h with h | ⟨y, hy, hg⟩
        · exact .inl (mem_cons_of_mem a h)
        · exact .inr ⟨y, mem_cons_of_mem a hy, hg⟩

theorem map_replaceF {k : α → β} (hk : ∀ y z, g y = some z → k z = k y) :
    (L.replaceF g).map k = L.map k := by
  induction L with
  | nil => rfl
  | cons a L ih =>
    rw [replaceF_cons]
    cases ha : g a with
    | some b => exact congrArg (· :: L.map k) (hk a b ha)
    | none => exact congrArg (k a :: ·) ih

end Replace

theorem has_iff {lcache : ℕ → List Link} {u v : ℕ} :
    Has lcache u v ↔ v ∈ (lcache u).map Link.dst := by
  rw [mem_map]
  exact Iff.rfl

namespace LinkCache

variable {s s' s'' : LinkCache} {now T : Time} {u v src dst root flags : ℕ} {links : List Link}
  {f : Link → Link}

/-- What an operation at `now` keeps. -/
structure Kept (now : Time) (s s' : LinkCache) : Prop where
  base : s'.toRouteCache = s.toRouteCache
  plain : Plain s.lcache → Plain s'.lcache
  tree : s'.tree = s.tree
  links : s'.dirty = now ∨ s'.dirty = s.dirty ∧ ∀ u v, Has s'.lcache u v ↔ Has s.lcache u v

theorem Kept.refl (now : Time) (s : LinkCache) : Kept now s s :=
  ⟨rfl, id, rfl, .inr ⟨rfl, fun _ _ => Iff.rfl⟩⟩

theorem Kept.trans (h : Kept now s s') (h' : Kept now s' s'') : Kept now s s'' := by
  refine ⟨h'.base.trans h.base, fun hs => h'.plain (h.plain hs), h'.tree.trans h.tree, ?_⟩
  rcases h'.links with hd' | ⟨hd', hl'⟩
  · exact .inl hd'
  · rcases h.links with hd | ⟨hd, hl⟩
    · exact .inl (hd'.trans hd)
    · exact .inr ⟨hd'.trans hd, fun u v => (hl' u v).trans (hl u v)⟩

/-- A cache of the node `root` at the time `T`. -/
structure Ok (root : ℕ) (T : Time) (s : LinkCache) : Prop where
  own : s.netId.addr = root
  inRange : InRange root
  plain : Plain s.lcache
  spans : T < s.dirty → s.tree.Spans s.lcache root

theorem Ok.kept (h : Ok root T s) (hT : T ≤ now) (hk : Kept now s s') : Ok root now s' := by
  refine ⟨?_, h.inRange, hk.plain h.plain, fun hlt => ?_⟩
  · rw [hk.base]
    exact h.own
  · rcases hk.links with hd | ⟨hd, hl⟩
    · exact absurd hlt (hd ▸ lt_irrefl _)
    · have hhas : Has s'.lcache = Has s.lcache := funext fun u => funext fun v => propext (hl u v)
      have hspans := h.spans (hT.trans_lt (hd ▸ hlt))
      unfold Tree.Spans at *
      rw [hhas, hk.tree]
      exact hspans

theorem plain_setLinks (h : Plain s.lcache)
    (hl : ∀ l ∈ links, InRange src ∧ InRange l.dst ∧ l.isUp = true ∧ l.cost = 1) :
    Plain (s.setLinks src links).lcache := by
  intro u l hmem
  unfold setLinks at hmem
  dsimp only at hmem
  split_ifs at hmem with hu
  · exact hu ▸ hl l hmem
  · exact h u l hmem

theorem kept_setLinks (hdst : links.map Link.dst = (s.lcache src).map Link.dst)
    (hl : Plain s.lcache → ∀ l ∈ links, InRange src ∧ InRange l.dst ∧ l.isUp = true ∧ l.cost = 1) :
    Kept now s (s.setLinks src links) := by
  refine ⟨rfl, fun hs => plain_setLinks hs (hl hs), rfl, .inr ⟨rfl, fun u v => ?_⟩⟩
  rw [has_iff, has_iff]
  unfold setLinks
  dsimp only
  split_ifs with hu
  · rw [hu, hdst]
  · rfl

/-- A change of the fields of a link that leaves it up. -/
structure Raises (f : Link → Link) : Prop where
  dst : ∀ l, (f l).dst = l.dst
  up : ∀ l, (f l).isUp = true
  cost : ∀ l, (f l).cost = 1

theorem kept_putLink (hsrc : InRange src) (hdst : InRange dst) (hf : Raises f) :
    Kept now s (s.putLink src dst flags now f) := by
  have hgood : ∀ l : Link, l.dst = dst →
      InRange src ∧ InRange (f l).dst ∧ (f l).isUp = true ∧ (f l).cost = 1 := fun l hl =>
    ⟨hsrc, by rw [hf.dst, hl]; exact hdst, hf.up l, hf.cost l⟩
  unfold putLink
  cases hfind : s.findLink src dst with
  | none =>
    refine ⟨rfl, fun hs => plain_setLinks hs fun l hl => ?_, rfl, .inl rfl⟩
    rcases mem_cons.1 hl with rfl | hl
    · exact hgood _ rfl
    · exact hs src l hl
  | some l =>
    dsimp only
    generalize hraise : (fun l' : Link =>
      if l.flags &&& flags ≠ flags then { l' with insert := now } else l') = raise
    have hkeep : ∀ l', (raise l').dst = l'.dst := by
      intro l'
      rw [← hraise]
      split_ifs <;> rfl
    have hreplace : ∀ y z, (if y.dst = dst then some (f (raise y)) else none) = some z →
        z = f (raise y) ∧ y.dst = dst := by
      intro y z hz
      split_ifs at hz with hy
      exact ⟨(Option.some_inj.1 hz).symm, hy⟩
    have hkept : Kept now s (s.setLinks src ((s.lcache src).replaceF fun l' =>
        if l'.dst = dst then some (f (raise l')) else none)) := by
      refine kept_setLinks (map_replaceF fun y z hz => ?_) fun hs x hx => ?_
      · rw [(hreplace y z hz).1, hf.dst, hkeep]
      · rcases mem_of_mem_replaceF hx with hx | ⟨y, hy, hz⟩
        · exact hs src x hx
        · rw [(hreplace y x hz).1]
          exact hgood _ ((hkeep y).trans (hreplace y x hz).2)
    rw [← hraise] at hkept
    by_cases hflags : l.flags &&& flags ≠ flags
    · refine (if_pos hflags).symm ▸ ⟨hkept.base, hkept.plain, hkept.tree, .inl rfl⟩
    · exact (if_neg hflags).symm ▸ hkept

theorem isUp_or (flags : ℕ) {l : Link} (h : l.flags = flags ||| linkFlagUp) : l.isUp = true := by
  unfold Link.isUp linkFlagUp at *
  rw [h, decide_eq_true_iff]
  intro hzero
  have hbit := congrArg (Nat.testBit · 0) hzero
  simp at hbit

theorem addLink_spec {a b : ID} {timeout : Time} (ha : InRange a.addr) (hb : InRange b.addr) :
    ∃ s', s.addLink a b linkFlagUp timeout now = some s' ∧ Kept now s s' := by
  unfold addLink
  rw [if_pos ⟨ha.2, hb.2⟩]
  have hf : Raises (Link.renew a.linkType linkFlagUp timeout now) :=
    ⟨fun _ => rfl, fun l => isUp_or l.flags rfl, fun _ => rfl⟩
  exact ⟨_, rfl, (kept_putLink ha hb hf).trans (kept_putLink hb ha hf)⟩

theorem addLinks_spec {l : List ID} (hl : ∀ id ∈ l, InRange id.addr) :
    ∃ s', addLinks now l s = some s' ∧ Kept now s s' := by
  induction l generalizing s with
  | nil => exact ⟨s, rfl, .refl now s⟩
  | cons a l ih =>
    rcases l with - | ⟨b, l⟩
    · exact ⟨s, rfl, .refl now s⟩
    · obtain ⟨ha, hl⟩ := forall_mem_cons.1 hl
      obtain ⟨s₁, hs₁, hk₁⟩ := addLink_spec (s := s) ha (hl b mem_cons_self)
      obtain ⟨s₂, hs₂, hk₂⟩ := ih hl (s := s₁)
      refine ⟨s₂, ?_, hk₁.trans hk₂⟩
      unfold addLinks
      rw [hs₁]
      exact hs₂

theorem kept_removeLink : Kept now s (s.removeLink src dst now) :=
  ⟨rfl, fun hs => plain_setLinks hs fun l hl => hs src l (mem_of_mem_eraseP hl), rfl, .inl rfl⟩

theorem kept_delLink {a b : ID} : Kept now s (s.delLink a b now) := by
  have hone : ∀ (t : LinkCache) (u v : ℕ),
      Kept now t (if (t.findLink u v).isSome then t.removeLink u v now else t) := by
    intro t u v
    split_ifs
    · exact kept_removeLink
    · exact .refl now t
  exact (hone s a.addr b.addr).trans (hone _ b.addr a.addr)

theorem kept_setExp {x : Time} : Kept now s (s.setExp u x) := ⟨rfl, id, rfl, .inr ⟨rfl, fun _ _ => Iff.rfl⟩⟩

theorem noticeDeadLink_spec {a b : ID} (s : LinkCache) (now : Time) (ha : InRange a.addr) (hb : InRange b.addr) :
    ∃ s', s.noticeDeadLink a b now = some s' ∧ Kept now s s' := by
  unfold noticeDeadLink
  rw [if_pos ⟨ha.2, hb.2⟩]
  cases s.findLink a.addr b.addr with
  | none => exact ⟨s, rfl, .refl now s⟩
  | some l =>
    refine ⟨_, rfl, Kept.trans ?_ kept_delLink⟩
    split_ifs
    · exact kept_setExp.trans kept_setExp
    · exact .refl now s

theorem inRange_of_keys {p q : Path} {rc : RouteCache} (hnet : InRange rc.netId.addr)
    (hp : ∀ id ∈ p.nodes, InRange id.addr) (hq : ∀ k ∈ q.keys, k ∈ p.keys ∨ k = rc.netId.key) :
    ∀ id ∈ q.nodes, InRange id.addr := by
  intro id hid
  rcases hq id.key (mem_map_of_mem hid) with h | h
  · obtain ⟨id', hid', hkey⟩ := mem_map.1 h
    have haddr : id'.addr = id.addr := congrArg Prod.snd hkey
    exact haddr ▸ hp id' hid'
  · have haddr : id.addr = rc.netId.addr := congrArg Prod.snd h
    exact haddr ▸ hnet

theorem noticeRouteUsed_spec {p : Path} {t : Time} {whoFrom : ID} (now : Time) (hnet : InRange s.netId.addr)
    (hp : ∀ id ∈ p.nodes, InRange id.addr) {r : Option Path}
    (hr : s.preNoticeRouteUsed p t whoFrom = some r) :
    ∃ s', s.noticeRouteUsed p t whoFrom now = some s' ∧ Kept now s s' := by
  unfold noticeRouteUsed
  rw [hr]
  cases r with
  | none => exact ⟨s, rfl, .refl now s⟩
  | some stub =>
    exact addLinks_spec (inRange_of_keys hnet hp (RouteCache.preNoticeRouteUsed_keys hr))

theorem addRoute_spec {p : Path} (now t : Time) (whoFrom : ID) (hnet : InRange s.netId.addr)
    (hp : ∀ id ∈ p.nodes, InRange id.addr) :
    ∃ s', s.addRoute p t whoFrom now = some s' ∧ Kept now s s' := by
  have hvalid : s.netId.eq invalidAddr = false := by
    refine Bool.eq_false_iff.2 fun heq => ?_
    have haddr : s.netId.addr = 0xffffffff := congrArg Prod.snd (ID.eq_iff.1 heq)
    have hle := hnet.2
    unfold lcMaxNodes at hle
    omega
  obtain ⟨r, hr⟩ : ∃ r, s.preAddRoute p t whoFrom = some r := by
    unfold RouteCache.preAddRoute
    rw [hvalid, if_neg Bool.false_ne_true]
    rcases p.nodes with - | ⟨first, - | ⟨second, rest⟩⟩
    · exact ⟨_, rfl⟩
    · exact ⟨_, rfl⟩
    · dsimp only
      split_ifs <;> exact ⟨_, rfl⟩
  unfold addRoute
  rw [hr]
  cases r with
  | none => exact ⟨s, rfl, .refl now s⟩
  | some rt =>
    exact addLinks_spec (inRange_of_keys hnet hp fun k hk =>
      .inl (RouteCache.preAddRoute_keys hr ▸ hk))

end LinkCache

end Dsr

end Ns2
