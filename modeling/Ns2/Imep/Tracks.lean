import Ns2.Imep.Heard

/-! The invariant of the resequencing queues, and the events that pass no packet on. -/

namespace Ns2.Imep

open Option

/-- The link and the queue of a neighbour, against the packets of it that have been passed on and those
that have arrived. -/
structure Tracks (passed : List ℕ) (arrived : List (ℕ × ℚ)) (last : Option ℕ) (q : List Txent) :
    Prop where
  fresh : passed = [] → q = [] ∧ ∀ b ∈ last, b = 0
  latest : ∀ k ∈ passed.head?, last = some (k % 256) ∧ Waiting k q ∧ ∀ t ∈ q, t.number ≠ k + 1
  decreasing : passed.Pairwise (· > ·)
  arrived : ∀ t ∈ q, ∃ p ∈ arrived, p.1 = t.number ∧ t.expire = p.2 + maxRetransTime

/-- The invariant of the resequencing queues. -/
structure ImepAgent.Ordered (s : ImepAgent) (passed : ℤ → List ℕ) (arrived : ℤ → List (ℕ × ℚ)) : Prop where
  addrs : (s.incomingQ.map Dstent.ipaddr).Nodup
  indices : (s.links.map ImepLink.index).Nodup
  now : 0 ≤ s.now
  times : ∀ x, ∀ p ∈ arrived x, 0 ≤ p.2 ∧ p.2 ≤ s.now
  idle : ∀ x, (dstOf s.incomingQ x).seqno = illegalSeq
  timer : ∀ t, s.incomingTimer = some t → s.now ≤ t ∧ t ≤ s.now + maxRetransTime
  due : ∀ x, ∀ t ∈ s.queueOf x, ∃ d, s.incomingTimer = some d ∧ d ≤ t.expire
  alive : ∀ x, ∀ t ∈ s.queueOf x, ∃ b, s.inOf x = some b ∧ t.expire + maxRetransTime ≤ b
  tracks : ∀ x, Tracks (passed x) (arrived x) (s.lastOf x) (s.queueOf x)

variable {passed passed' : List ℕ} {arrived arrived' : List (ℕ × ℚ)} {last : Option ℕ} {q : List Txent}

theorem Tracks.of_last_none (h : Tracks passed arrived none q) : passed = [] ∧ q = [] := by
  cases passed with
  | nil => exact ⟨rfl, (h.fresh rfl).1⟩
  | cons k passed => exact absurd (h.latest k rfl).1 (some_ne_none _).symm

theorem tracks_nil (h : ∀ b ∈ last, b = 0) : Tracks [] arrived last [] :=
  ⟨fun _ => ⟨rfl, h⟩, nofun, List.Pairwise.nil, nofun⟩

theorem Tracks.mono (h : Tracks passed arrived last q) (ha : ∀ p ∈ arrived, p ∈ arrived') :
    Tracks passed arrived' last q :=
  ⟨h.fresh, h.latest, h.decreasing, fun t ht =>
    let ⟨p, hp, hpt⟩ := h.arrived t ht
    ⟨p, ha p hp, hpt⟩⟩

theorem Tracks.atOnce (h : Tracks passed arrived last q) :
    ∀ m ∈ passed, m + 1 ∉ q.map Txent.number := by
  intro m hm hq
  obtain ⟨t, ht, htm⟩ := List.mem_map.1 hq
  cases passed with
  | nil => cases hm
  | cons k passed =>
    obtain ⟨-, hw, hgap⟩ := h.latest k rfl
    have hk := (hw.ahead t ht).1
    rcases List.mem_cons.1 hm with rfl | hm
    · exact hgap t ht htm
    · have hlt : k > m := List.rel_of_pairwise_cons h.decreasing hm
      omega

theorem Tracks.expire_le {now : ℚ} (h : Tracks passed arrived last q)
    (ht : ∀ p ∈ arrived, 0 ≤ p.2 ∧ p.2 ≤ now) :
    ∀ t ∈ q, 0 < t.expire ∧ t.expire ≤ now + maxRetransTime := by
  intro t hq
  obtain ⟨p, hp, -, hexp⟩ := h.arrived t hq
  obtain ⟨h0, hnow⟩ := ht p hp
  have hpos : (0 : ℚ) < maxRetransTime := by rw [maxRetransTime, retransPeriod, maxRexmits]; norm_num
  constructor
  · rw [hexp]
    linarith
  · rw [hexp]
    linarith

namespace ImepAgent

variable {s s' s'' : ImepAgent} {x y : ℤ} {P P' : ℤ → List ℕ} {A : ℤ → List (ℕ × ℚ)}

theorem passedOn_append (x : ℤ) (l l' : List Upcall) : passedOn x (l ++ l') = passedOn x l ++ passedOn x l' :=
  List.filterMap_append

/-- Links may come up; the queues are as they were. -/
structure Wakes (s s' : ImepAgent) : Prop where
  now : s'.now = s.now
  queue : s'.incomingQ = s.incomingQ
  timer : s'.incomingTimer = s.incomingTimer
  indices : (s.links.map ImepLink.index).Nodup → (s'.links.map ImepLink.index).Nodup
  last : ∀ y, s'.lastOf y = s.lastOf y ∨ s.lastOf y = none ∧ s'.lastOf y = some 0
  inOf : ∀ y, s'.inOf y = s.inOf y ∨ s'.inOf y = some (s.now + maxBeaconTime)
  calls : ∀ y, passedOn y s'.rtagent = passedOn y s.rtagent

/-- Links may be set down, with the queues of their neighbours. -/
structure Lapses (s s' : ImepAgent) : Prop where
  now : s'.now = s.now
  timer : s'.incomingTimer = s.incomingTimer
  addrs : (s.incomingQ.map Dstent.ipaddr).Nodup → (s'.incomingQ.map Dstent.ipaddr).Nodup
  indices : (s.links.map ImepLink.index).Nodup → (s'.links.map ImepLink.index).Nodup
  each : (s.incomingQ.map Dstent.ipaddr).Nodup → ∀ y,
    (s'.lastOf y = none ∧ s'.queueOf y = [] ∧ (dstOf s'.incomingQ y).seqno = illegalSeq) ∨
      s'.lastOf y = s.lastOf y ∧ s'.inOf y = s.inOf y ∧ dstOf s'.incomingQ y = dstOf s.incomingQ y
  calls : ∀ y, passedOn y s'.rtagent = passedOn y s.rtagent

theorem Wakes.refl (s : ImepAgent) : Wakes s s :=
  ⟨rfl, rfl, rfl, id, fun _ => Or.inl rfl, fun _ => Or.inl rfl, fun _ => rfl⟩

theorem Wakes.trans (h : Wakes s s') (h' : Wakes s' s'') : Wakes s s'' := by
  refine ⟨h'.now.trans h.now, h'.queue.trans h.queue, h'.timer.trans h.timer,
    fun hn => h'.indices (h.indices hn), fun y => ?_, fun y => ?_, fun y => (h'.calls y).trans (h.calls y)⟩
  · rcases h.last y with hl | ⟨hl, hl'⟩
    · rw [← hl]
      exact h'.last y
    · rcases h'.last y with hl'' | ⟨hl'', -⟩
      · exact Or.inr ⟨hl, hl''.trans hl'⟩
      · rw [hl'] at hl''
        cases hl''
  · rcases h'.inOf y with hi | hi
    · rw [hi]
      exact h.inOf y
    · rw [hi, h.now]
      exact Or.inr rfl

theorem Lapses.refl (s : ImepAgent) : Lapses s s :=
  ⟨rfl, rfl, id, id, fun _ _ => Or.inr ⟨rfl, rfl, rfl⟩, fun _ => rfl⟩

theorem Lapses.trans (h : Lapses s s') (h' : Lapses s' s'') : Lapses s s'' := by
  refine ⟨h'.now.trans h.now, h'.timer.trans h.timer, fun hn => h'.addrs (h.addrs hn),
    fun hn => h'.indices (h.indices hn), fun hn y => ?_, fun y => (h'.calls y).trans (h.calls y)⟩
  rcases h'.each (h.addrs hn) y with hy | ⟨hl, hi, hd⟩
  · exact Or.inl hy
  · rw [hl, hi, queueOf, hd]
    exact h.each hn y

theorem Ordered.wakes (h : Ordered s P A) (hw : Wakes s s') : Ordered s' P A := by
  have hqueue : ∀ y, s'.queueOf y = s.queueOf y := fun y => by rw [queueOf, hw.queue, queueOf]
  refine ⟨hw.queue ▸ h.addrs, hw.indices h.indices, hw.now ▸ h.now, hw.now ▸ h.times,
    hw.queue ▸ h.idle, hw.now ▸ hw.timer ▸ h.timer, fun y t ht => ?_, fun y t ht => ?_, fun y => ?_⟩
  · rw [hw.timer]
    exact h.due y t (hqueue y ▸ ht)
  · rw [hqueue] at ht
    rcases hw.inOf y with hi | hi
    · rw [hi]
      exact h.alive y t ht
    · refine ⟨_, hi, ?_⟩
      have := ((h.tracks y).expire_le (h.times y) t ht).2
      have hsum : maxRetransTime + maxRetransTime ≤ maxBeaconTime := by
        rw [maxRetransTime, retransPeriod, maxRexmits, maxBeaconTime]
        norm_num
      linarith
  · rw [hqueue]
    rcases hw.last y with hl | ⟨hl, hl'⟩
    · exact hl ▸ h.tracks y
    · obtain ⟨hp, hq⟩ := (hl ▸ h.tracks y).of_last_none
      rw [hp, hq, hl']
      exact tracks_nil fun b hb => (some.inj hb).symm

theorem Ordered.lapses (h : Ordered s P A) (hl : Lapses s s') :
    Ordered s' (fun y => if (s'.lastOf y).isSome then P y else []) A := by
  have hqueue : ∀ y, s'.lastOf y = none ∧ s'.queueOf y = [] ∨ s'.lastOf y = s.lastOf y ∧
      s'.inOf y = s.inOf y ∧ s'.queueOf y = s.queueOf y := fun y =>
    (hl.each h.addrs y).imp (fun ⟨hl, hq, _⟩ => ⟨hl, hq⟩)
      fun ⟨hl, hi, hd⟩ => ⟨hl, hi, congrArg Dstent.txents hd⟩
  refine ⟨hl.addrs h.addrs, hl.indices h.indices, hl.now ▸ h.now, hl.now ▸ h.times, fun y => ?_,
    hl.now ▸ hl.timer ▸ h.timer, fun y t ht => ?_, fun y t ht => ?_, fun y => ?_⟩
  · rcases hl.each h.addrs y with ⟨-, -, hd⟩ | ⟨-, -, hd⟩
    · exact hd
    · rw [hd]
      exact h.idle y
  · rcases hqueue y with ⟨-, hq⟩ | ⟨-, -, hq⟩
    · rw [hq] at ht
      cases ht
    · rw [hl.timer]
      exact h.due y t (hq ▸ ht)
  · rcases hqueue y with ⟨-, hq⟩ | ⟨-, hi, hq⟩
    · rw [hq] at ht
      cases ht
    · rw [hi]
      exact h.alive y t (hq ▸ ht)
  · rcases hqueue y with ⟨hn, hq⟩ | ⟨hs, -, hq⟩
    · rw [hn, hq]
      exact tracks_nil nofun
    · rw [hq]
      split_ifs with hsome
      · exact hs ▸ h.tracks y
      · rw [not_isSome_iff_eq_none.1 hsome]
        have := (hs.symm.trans (not_isSome_iff_eq_none.1 hsome)) ▸ h.tracks y
        rw [this.of_last_none.2]
        exact tracks_nil nofun

section

variable (hn : s'.now = s.now) (hq : s'.incomingQ = s.incomingQ)
  (ht : s'.incomingTimer = s.incomingTimer) (hl : s'.links = s.links)
include hn hq ht hl

theorem wakes_of_links (hc : ∀ y, passedOn y s'.rtagent = passedOn y s.rtagent) : Wakes s s' :=
  ⟨hn, hq, ht, fun h => hl ▸ h, fun y => Or.inl (by rw [lastOf, findLink, hl]; rfl),
    fun y => Or.inl (by rw [inOf, findLink, hl]; rfl), hc⟩

theorem lapses_of_links (hc : ∀ y, passedOn y s'.rtagent = passedOn y s.rtagent) : Lapses s s' :=
  ⟨hn, ht, fun h => hq ▸ h, fun h => hl ▸ h, fun _ y => Or.inr
    ⟨by rw [lastOf, findLink, hl]; rfl, by rw [ImepAgent.inOf, findLink, hl]; rfl, by rw [hq]⟩, hc⟩

end

theorem nodup_setLink (f : ImepLink → ImepLink) (hf : ∀ l, (f l).index = l.index)
    (hn : (s.links.map ImepLink.index).Nodup) : ((s.setLink x f).links.map ImepLink.index).Nodup := by
  rw [setLink]
  rw [map_updateKey fun l hl => (hf l).trans hl]
  exact hn

theorem findLink_setLink_self (f : ImepLink → ImepLink) (hf : ∀ l, (f l).index = l.index) :
    (s.setLink x f).findLink x = (s.findLink x).map f := by
  rw [findLink, setLink, findKey_updateKey fun l hl => (hf l).trans hl, if_pos rfl]
  rfl

theorem Wakes.notify_linkUp (h : Wakes s s') (x : ℤ) : Wakes s (s'.notify (.linkUp x)) :=
  h.trans (wakes_of_links rfl rfl rfl rfl fun y => by
    rw [notify, passedOn_append]
    exact List.append_nil _)

theorem wakes_addLink : Wakes s (s.addLink x) := by
  rw [addLink]
  split
  · rename_i hnone
    have hnone' : ∀ l ∈ s.links, l.index ≠ x := findKey_eq_none.1 hnone
    have hx : s.lastOf x = none ∧ s.inOf x = none := by
      rw [lastOf, inOf, hnone]
      exact ⟨rfl, rfl⟩
    refine ⟨rfl, rfl, rfl, fun hn => List.nodup_cons.2 ⟨fun hx => ?_, hn⟩, fun y => Or.inl ?_,
      fun y => Or.inl ?_, fun _ => rfl⟩
    · obtain ⟨l, hl, hlx⟩ := List.mem_map.1 hx
      exact hnone' l hl hlx
    · rw [lastOf, findLink, findKey_cons]
      split_ifs with hxy
      · rw [← hxy, hx.1]
        rfl
      · rfl
    · rw [inOf, findLink, findKey_cons]
      split_ifs with hxy
      · rw [← hxy, hx.2]
        rfl
      · rfl
  · exact Wakes.refl s

theorem wakes_setIn : Wakes s (s.setLink x (ImepLink.setIn s.now)) := by
  have hf : ∀ l, (ImepLink.setIn s.now l).index = l.index := fun l => by
    rw [ImepLink.setIn]
    split_ifs <;> rfl
  refine ⟨rfl, rfl, rfl, nodup_setLink _ hf, fun y => ?_, fun y => ?_, fun _ => rfl⟩
  · rw [lastOf_setLink _ hf]
    split_ifs with hy
    · rw [hy, lastOf]
      cases s.findLink x with
      | none => exact Or.inl rfl
      | some l => obtain ⟨_, _ | _, _ | _, _, _, _⟩ := l <;> first | exact Or.inl rfl | exact Or.inr ⟨rfl, rfl⟩
    · exact Or.inl rfl
  · rw [inOf_setLink _ hf]
    split_ifs with hy
    · rw [hy, inOf]
      cases s.findLink x with
      | none => exact Or.inl rfl
      | some l => exact Or.inr rfl
    · exact Or.inl rfl

theorem wakes_imepSetLinkInStatus : Wakes s (s.imepSetLinkInStatus x) ∧
    ((s.imepSetLinkInStatus x).lastOf x).isSome ∧
      (s.imepSetLinkInStatus x).inOf x = some (s.now + maxBeaconTime) := by
  have hadd : Wakes s (s.addLink x) := wakes_addLink
  have hset : Wakes s ((s.addLink x).setLink x (ImepLink.setIn (s.addLink x).now)) :=
    hadd.trans wakes_setIn
  obtain ⟨l, hl⟩ : ∃ l, (s.addLink x).findLink x = some l := by
    rw [addLink]
    split
    · rw [findLink, findKey_cons, if_pos rfl]
      exact ⟨_, rfl⟩
    · rename_i l hl
      exact ⟨l, hl⟩
  have hf : ∀ l, (ImepLink.setIn (s.addLink x).now l).index = l.index := fun l => by
    rw [ImepLink.setIn]
    split_ifs <;> rfl
  have hlast : (((s.addLink x).setLink x (ImepLink.setIn (s.addLink x).now)).lastOf x).isSome := by
    rw [lastOf_setLink _ hf, if_pos rfl, hl]
    rfl
  have hin : ((s.addLink x).setLink x (ImepLink.setIn (s.addLink x).now)).inOf x =
      some (s.now + maxBeaconTime) := by
    rw [inOf_setLink _ hf, if_pos rfl, hl, ← hadd.now]
    rfl
  rw [imepSetLinkInStatus]
  split_ifs
  · exact ⟨hset.notify_linkUp x, hlast, hin⟩
  · exact ⟨hset, hlast, hin⟩

theorem wakes_imepSetLinkOutStatus (h : s.imepSetLinkOutStatus x = some s')
    (hx : ((s.lastOf x).isSome)) : Wakes s s' := by
  obtain ⟨l, hl, rfl⟩ := map_eq_some_iff.1 h
  have hset : Wakes s (s.setLink x (ImepLink.setOut s.now)) := by
    refine ⟨rfl, rfl, rfl, nodup_setLink _ fun _ => rfl, fun y => Or.inl ?_, fun y => Or.inl ?_,
      fun _ => rfl⟩
    · rw [lastOf_setLink (ImepLink.setOut s.now) fun _ => rfl]
      split_ifs with hy
      · rw [hy]
        rw [lastOf, hl] at hx ⊢
        obtain ⟨_, _ | _, _ | _, _, _, _⟩ := l <;> first | rfl | cases hx
      · rfl
    · rw [inOf_setLink (ImepLink.setOut s.now) fun _ => rfl]
      split_ifs with hy
      · rw [hy, inOf, hl]
        obtain ⟨_, _ | _, _⟩ := l <;> rfl
      · rfl
  dsimp only
  split_ifs
  · exact hset.notify_linkUp x
  · exact hset

theorem wakes_imepSetLinkBiStatus (h : s.imepSetLinkBiStatus x = some s') : Wakes s s' :=
  wakes_imepSetLinkInStatus.1.trans (wakes_imepSetLinkOutStatus h wakes_imepSetLinkInStatus.2.1)

theorem wakes_imepAckInput {number : ℕ} (h : s.imepAckInput x number = some s') : Wakes s s' := by
  rw [imepAckInput] at h
  split at h
  · cases h
  · obtain rfl := some.inj h
    exact Wakes.refl s
  · refine Wakes.trans ?_ (wakes_imepSetLinkBiStatus h)
    rw [removeObjectResponse]
    split
    · exact Wakes.refl s
    · exact wakes_of_links rfl rfl rfl rfl fun _ => rfl
    · exact wakes_of_links rfl rfl rfl rfl fun _ => rfl

theorem wakes_aggregateObjectBlock (memory : ℕ → ℤ) : Wakes s (s.aggregateObjectBlock memory) := by
  rw [aggregateObjectBlock]
  split_ifs
  · exact wakes_of_links rfl rfl rfl rfl fun _ => rfl
  · exact wakes_of_links rfl rfl rfl rfl fun _ => rfl

theorem lapses_imepSetLinkDownStatus : Lapses s (s.imepSetLinkDownStatus x) := by
  rw [imepSetLinkDownStatus]
  split
  · exact Lapses.refl s
  · rename_i l hl
    refine ⟨rfl, rfl, fun hn => nodup_eraseKey hn, nodup_setLink ImepLink.setDown fun _ => rfl,
      fun hn y => ?_, fun y => ?_⟩
    · have hd := dstOf_eraseKey (x := x) (y := y) hn
      have hlast := lastOf_setLink (s := s) (x := x) (y := y) ImepLink.setDown fun _ => rfl
      have hin := inOf_setLink (s := s) (x := x) (y := y) ImepLink.setDown fun _ => rfl
      by_cases hy : y = x
      · rw [if_pos hy, hl] at hlast
        rw [if_pos hy] at hd
        exact Or.inl ⟨hlast, congrArg Dstent.txents hd, congrArg Dstent.seqno hd⟩
      · rw [if_neg hy] at hd hlast hin
        exact Or.inr ⟨hlast, hin, hd⟩
    · rw [notify, passedOn_append]
      exact List.append_nil _

/-- The neighbour that is set down, for which nothing waits any more. -/
structure Silent (x : ℤ) (s : ImepAgent) : Prop where
  last : s.lastOf x = none
  queue : s.queueOf x = []
  seqno : (dstOf s.incomingQ x).seqno = illegalSeq

theorem silent_imepSetLinkDownStatus (hn : (s.incomingQ.map Dstent.ipaddr).Nodup) {l : ImepLink}
    (hl : s.findLink x = some l) : Silent x (s.imepSetLinkDownStatus x) ∧
      (s.imepSetLinkDownStatus x).findLink x = some l.setDown := by
  have hd := dstOf_eraseKey (x := x) (y := x) hn
  have hlast := lastOf_setLink (s := s) (x := x) (y := x) ImepLink.setDown fun _ => rfl
  have hfind := findLink_setLink_self (s := s) (x := x) ImepLink.setDown fun _ => rfl
  rw [if_pos rfl] at hd
  rw [if_pos rfl, hl] at hlast
  rw [hl] at hfind
  rw [imepSetLinkDownStatus, hl]
  exact ⟨⟨hlast, congrArg Dstent.txents hd, congrArg Dstent.seqno hd⟩, hfind⟩

theorem Lapses.of_setLink {f : ImepLink → ImepLink} (hf : ∀ l, (f l).index = l.index)
    (h : Lapses (s.setLink x f) s') (hx : Silent x s') : Lapses s s' := by
  refine ⟨h.now, h.timer, h.addrs, fun hn => h.indices (nodup_setLink f hf hn), fun hn y => ?_, h.calls⟩
  by_cases hy : y = x
  · rw [hy]
    exact Or.inl ⟨hx.last, hx.queue, hx.seqno⟩
  · have hlast := lastOf_setLink (s := s) (x := x) (y := y) f hf
    have hin := inOf_setLink (s := s) (x := x) (y := y) f hf
    rw [if_neg hy] at hlast hin
    rw [← hlast, ← hin]
    exact h.each hn y

theorem lapses_puntNeighbors (number fuel i : ℕ) : Lapses s (s.puntNeighbors number fuel i) := by
  induction fuel generalizing s i with
  | zero => exact Lapses.refl s
  | succ fuel ih =>
    rw [puntNeighbors]
    split
    · exact Lapses.refl s
    · split_ifs
      · exact lapses_imepSetLinkDownStatus.trans (ih _)
      · exact Lapses.refl s

theorem lapses_handlerReXmitTimer : Lapses s s.handlerReXmitTimer := by
  have hrestart : ∀ s : ImepAgent, Lapses s s.restartReXmitTimer := fun s => by
    rw [restartReXmitTimer]
    split
    · exact Lapses.refl s
    · exact lapses_of_links rfl rfl rfl rfl fun _ => rfl
  rw [handlerReXmitTimer]
  split
  · exact Lapses.refl s
  · split_ifs
    · exact (lapses_puntNeighbors _ _ _).trans (hrestart _)
    · refine Lapses.trans ?_ (hrestart _)
      exact lapses_of_links rfl rfl rfl rfl fun _ => rfl
    · exact hrestart _

theorem Ordered.queueOf_of_expired (h : Ordered s P A) {l : ImepLink} (hl : s.findLink x = some l)
    (hin : l.linkIn = true → l.inExpire < s.now) : s.queueOf x = [] := by
  refine List.eq_nil_iff_forall_not_mem.2 fun t ht => ?_
  obtain ⟨b, hb, hexp⟩ := h.alive x t ht
  obtain ⟨d, hd, hdt⟩ := h.due x t ht
  have hnow := (h.timer d hd).1
  rw [inOf, hl] at hb
  obtain ⟨l', hl', rfl⟩ := map_eq_some_iff.1 hb
  obtain ⟨hl', hl'in⟩ := filter_eq_some_iff.1 hl'
  obtain rfl := some.inj hl'
  have hlt := hin hl'in
  have hpos : (0 : ℚ) < maxRetransTime := by rw [maxRetransTime, retransPeriod, maxRexmits]; norm_num
  linarith

theorem lapses_eraseLink (hn : (s.links.map ImepLink.index).Nodup) (hx : Silent x s) :
    Lapses s { s with links := eraseKey ImepLink.index x s.links } := by
  refine ⟨rfl, rfl, id, fun _ => nodup_eraseKey hn, fun _ y => ?_, fun _ => rfl⟩
  have hfind : findLink y { s with links := eraseKey ImepLink.index x s.links } =
      if y = x then none else s.findLink y := findKey_eraseKey hn
  rw [lastOf, inOf, hfind]
  by_cases hy : y = x
  · rw [if_pos hy, hy]
    exact Or.inl ⟨rfl, hx.queue, hx.seqno⟩
  · rw [if_neg hy]
    exact Or.inr ⟨rfl, rfl, rfl⟩

/-- What the expiry of the bits of a link leaves of it, if the link is not set down. -/
theorem expire_cases (now : ℚ) (l : ImepLink) (h : (l.isBi && !(l.expire now).isBi) = false) :
    ((l.expire now).isDown = true ∧ (l.linkIn = true → l.inExpire < now)) ∨
      (l.expire now).isDown = false ∧ l.isDown = false ∧ (l.expire now).linkIn = l.linkIn := by
  obtain ⟨i, a, b, ie, oe, seq⟩ := l
  by_cases hi : ie < now <;> by_cases ho : oe < now <;> cases a <;> cases b <;>
    simp_all [ImepLink.isBi, ImepLink.isDown, ImepLink.expire]

theorem Ordered.purgeLink (h : Ordered s P A) : Lapses s (s.purgeLink x) := by
  rw [ImepAgent.purgeLink]
  cases hl : s.findLink x with
  | none => exact Lapses.refl s
  | some l =>
    dsimp only
    have hf : ∀ l, (ImepLink.expire s.now l).index = l.index := fun _ => rfl
    have hn : ((s.setLink x (ImepLink.expire s.now)).links.map ImepLink.index).Nodup :=
      nodup_setLink _ hf h.indices
    have hlast := fun y => lastOf_setLink (s := s) (x := x) (y := y) _ hf
    have hin := fun y => inOf_setLink (s := s) (x := x) (y := y) _ hf
    have hfind : (s.setLink x (ImepLink.expire s.now)).findLink x = some (l.expire s.now) := by
      rw [findLink_setLink_self _ hf, hl]
      rfl
    rw [hfind, any_some]
    by_cases hbi : (l.isBi && !(l.expire s.now).isBi) = true
    · rw [if_pos hbi]
      obtain ⟨hsilent, hdown⟩ := silent_imepSetLinkDownStatus
        (s := s.setLink x (ImepLink.expire s.now)) h.addrs hfind
      have hlapses := lapses_imepSetLinkDownStatus.of_setLink hf hsilent
      rw [hdown, any_some, if_pos (by rfl)]
      exact hlapses.trans (lapses_eraseLink (hlapses.indices h.indices) hsilent)
    · rw [if_neg hbi, hfind, any_some]
      rcases expire_cases s.now l (Bool.eq_false_iff.2 hbi) with ⟨hd, hexp⟩ | ⟨hd, hd', hlin⟩
      · rw [if_pos hd]
        have hsilent : Silent x (s.setLink x (ImepLink.expire s.now)) := by
          refine ⟨?_, h.queueOf_of_expired hl hexp, h.idle x⟩
          rw [lastOf, hfind, filter_some, hd]
          rfl
        exact ((Lapses.refl _).of_setLink hf hsilent).trans (lapses_eraseLink hn hsilent)
      · rw [if_neg (Bool.eq_false_iff.1 hd)]
        refine ⟨rfl, rfl, id, fun _ => hn, fun _ y => Or.inr ⟨?_, ?_, rfl⟩, fun _ => rfl⟩
        · rw [hlast]
          split_ifs with hy
          · rw [hy, lastOf, hl, map_some, filter_some, filter_some, hd, hd']
            rfl
          · rfl
        · rw [hin]
          split_ifs with hy
          · rw [hy, inOf, hl, map_some, filter_some, filter_some, hlin]
            cases l.linkIn <;> rfl
          · rfl

end ImepAgent

end Ns2.Imep
