import Ns2.Imep.Ledger

/-! A packet of objects stays in the retransmission queue until every neighbour asked for an
acknowledgement has sent it or has been set down. -/

namespace Ns2.Imep

open List

namespace ImepAgent

variable {s s' s'' : ImepAgent} {x y : ℤ} {q q' : List Rexent}
variable {f : ImepLink → ImepLink} {number : ℕ} {L : Ledger}

theorem Sound.of_perm (h : s.Sound) (hp : (s'.rexmitq.map Rexent.block).Perm (s.rexmitq.map Rexent.block))
    (hseq : s'.controlSequence = s.controlSequence) (hlinks : s'.links = s.links) : s'.Sound := by
  have hmem : ∀ r' ∈ s'.rexmitq, ∃ r ∈ s.rexmitq, r.block = r'.block := fun r' hr' =>
    mem_map.1 (hp.mem_iff.1 (mem_map_of_mem hr'))
  refine ⟨hlinks ▸ h.links, ?_, fun r' hr' => ?_, fun r' hr' => ?_, fun r' hr' x hx => ?_⟩
  · have := hp.map ObjectBlock.number
    rw [map_map, map_map] at this
    exact this.nodup_iff.2 h.numbers
  · obtain ⟨r, hr, heq⟩ := hmem r' hr'
    rw [hseq, Rexent.number, ← heq]
    exact h.made r hr
  · obtain ⟨r, hr, heq⟩ := hmem r' hr'
    exact ⟨heq ▸ (h.good r hr).nodup, heq ▸ (h.good r hr).pos⟩
  · obtain ⟨r, hr, heq⟩ := hmem r' hr'
    exact hlinks ▸ h.bi r hr x (heq ▸ hx)

/-- The queue is as it was, and no link to both sides is lost. -/
structure LinksKept (s s' : ImepAgent) : Prop where
  queue : s'.rexmitq = s.rexmitq
  sequence : s'.controlSequence = s.controlSequence
  nodup : (s.links.map ImepLink.index).Nodup → (s'.links.map ImepLink.index).Nodup
  bi : (s.links.map ImepLink.index).Nodup →
    ∀ x, (x, true, true) ∈ s.links.map ImepLink.status → (x, true, true) ∈ s'.links.map ImepLink.status

theorem LinksKept.refl (s : ImepAgent) : LinksKept s s := ⟨rfl, rfl, id, fun _ _ => id⟩

theorem LinksKept.trans (h : LinksKept s s') (h' : LinksKept s' s'') : LinksKept s s'' :=
  ⟨h'.queue.trans h.queue, h'.sequence.trans h.sequence, fun hn => h'.nodup (h.nodup hn),
    fun hn x hx => h'.bi (h.nodup hn) x (h.bi hn x hx)⟩

theorem LinksKept.sound (h : LinksKept s s') (hs : s.Sound) : s'.Sound := by
  refine ⟨h.nodup hs.links, ?_, ?_, ?_, ?_⟩
  · exact h.queue ▸ hs.numbers
  · exact h.queue ▸ h.sequence ▸ hs.made
  · exact h.queue ▸ hs.good
  · rw [h.queue]
    exact fun r hr x hx => h.bi hs.links x (hs.bi r hr x hx)

theorem linksKept_of_links (hq : s'.rexmitq = s.rexmitq) (hseq : s'.controlSequence = s.controlSequence)
    (hl : s'.links = s.links) : LinksKept s s' :=
  ⟨hq, hseq, fun h => hl ▸ h, fun _ _ h => hl ▸ h⟩

theorem linksKept_setLink (hf : ∀ l, (f l).index = l.index) (hbi : ∀ l, l.isBi → (f l).isBi) :
    LinksKept s (s.setLink x f) := by
  have hkeys : (updateKey ImepLink.index x f s.links).map ImepLink.index =
      s.links.map ImepLink.index := map_updateKey fun l hl => (hf l).trans hl
  refine ⟨rfl, rfl, fun h => hkeys.symm ▸ h, fun hn y hy => ?_⟩
  obtain ⟨l, hl, heq⟩ := mem_map.1 hy
  obtain ⟨rfl, hin, hout⟩ : l.index = y ∧ l.linkIn = true ∧ l.linkOut = true := by
    simpa [ImepLink.status] using heq
  by_cases hlx : l.index = x
  · refine mem_map.2 ⟨f l, (mem_updateKey hn).2 (Or.inr ⟨l, hl, hlx, rfl⟩), ?_⟩
    have := hbi l (by simp [ImepLink.isBi, hin, hout])
    rw [ImepLink.isBi, Bool.and_eq_true] at this
    rw [ImepLink.status, hf, this.1, this.2]
  · exact mem_map.2 ⟨l, (mem_updateKey hn).2 (Or.inl ⟨hl, hlx⟩), heq⟩

theorem LinksKept.notify (h : LinksKept s s') (u : Upcall) : LinksKept s (s'.notify u) :=
  h.trans (linksKept_of_links rfl rfl rfl)

theorem LinksKept.setLastSeq (h : LinksKept s s') (seq : ℕ) : LinksKept s (s'.setLastSeq x seq) :=
  h.trans (linksKept_setLink (fun _ => rfl) fun _ h => h)

theorem linksKept_addLink : LinksKept s (s.addLink x) := by
  rw [addLink]
  split
  · rename_i hnone
    refine ⟨rfl, rfl, fun hn => nodup_cons.2 ⟨fun hx => ?_, hn⟩,
      fun _ y hy => mem_cons_of_mem _ hy⟩
    obtain ⟨l, hl, hlx⟩ := mem_map.1 hx
    exact findKey_eq_none.1 hnone l hl hlx
  · exact LinksKept.refl s

theorem linksKept_imepSetLinkInStatus : LinksKept s (s.imepSetLinkInStatus x) := by
  have hset : ∀ s : ImepAgent, LinksKept s (s.setLink x (ImepLink.setIn s.now)) := fun s =>
    linksKept_setLink (fun l => by rw [ImepLink.setIn]; dsimp only; split_ifs <;> rfl) fun l hl => by
      rw [ImepLink.isBi, Bool.and_eq_true] at hl
      have hd : l.isDown = false := by simp [ImepLink.isDown, hl.1]
      simp [ImepLink.isBi, ImepLink.setIn, hd, hl.2]
  have h₁ : LinksKept s ((s.addLink x).setLink x (ImepLink.setIn (s.addLink x).now)) :=
    linksKept_addLink.trans (hset _)
  rw [imepSetLinkInStatus]
  split_ifs
  · exact h₁.notify _
  · exact h₁

theorem linksKept_imepSetLinkOutStatus (h : s.imepSetLinkOutStatus x = some s') : LinksKept s s' := by
  obtain ⟨l, -, rfl⟩ := Option.map_eq_some_iff.1 h
  have hset : LinksKept s (s.setLink x (ImepLink.setOut s.now)) :=
    linksKept_setLink (fun _ => rfl) fun l hl => by
      rw [ImepLink.isBi, Bool.and_eq_true] at hl
      simp [ImepLink.isBi, ImepLink.setOut, hl.1]
  dsimp only
  split_ifs
  · exact hset.notify _
  · exact hset

theorem linksKept_imepSetLinkBiStatus (h : s.imepSetLinkBiStatus x = some s') : LinksKept s s' :=
  linksKept_imepSetLinkInStatus.trans (linksKept_imepSetLinkOutStatus h)

theorem LinksKept.deliverInSequence (h : LinksKept s s') (fuel : ℕ) :
    LinksKept s (s'.deliverInSequence x fuel) := by
  induction fuel generalizing s' with
  | zero => exact h
  | succ fuel ih =>
    rw [ImepAgent.deliverInSequence]
    split
    · exact h
    · split
      · exact h
      · rename_i q _
        have hq : LinksKept s { s' with incomingQ := q } := h.trans (linksKept_of_links rfl rfl rfl)
        exact ih ((hq.setLastSeq _).notify _)

theorem linksKept_imepObjectInput (h : s.imepObjectInput x number = some s') : LinksKept s s' := by
  rw [imepObjectInput] at h
  dsimp only at h
  split at h
  · cases h
  · rename_i l _
    generalize (if l.lastSeqValid = true then l.lastSeq else (number % 256 + 255) % 256) = last at h
    have hset : LinksKept s (s.setLastSeq x last) := (LinksKept.refl s).setLastSeq last
    split_ifs at h
    · exact Option.some.inj h ▸ hset
    · exact Option.some.inj h ▸ ((hset.notify _).setLastSeq _).deliverInSequence _
    · refine Option.some.inj h ▸ LinksKept.deliverInSequence (hset.trans ?_) _
      exact linksKept_of_links rfl rfl rfl

theorem linksKept_retireHoles {fuel : ℕ} (h : s.retireHoles fuel = some s') : LinksKept s s' := by
  induction fuel generalizing s with
  | zero => cases h
  | succ fuel ih =>
    rw [retireHoles] at h
    split at h
    · cases h
    · exact Option.some.inj h ▸ linksKept_of_links rfl rfl rfl
    · split at h
      · cases h
      · rename_i q _ _ _ _
        have hq : LinksKept s { s with incomingQ := q } := linksKept_of_links rfl rfl rfl
        exact ((((hq.notify _).setLastSeq _).notify _).deliverInSequence _).trans (ih h)

theorem linksKept_handlerIncomingTimer (h : s.handlerIncomingTimer = some s') : LinksKept s s' := by
  rw [handlerIncomingTimer] at h
  split at h
  · cases h
  · rename_i s₁ hret
    have h₁ := linksKept_retireHoles hret
    dsimp only at h
    split_ifs at h
    · exact Option.some.inj h ▸ h₁.trans (linksKept_of_links rfl rfl rfl)
    · exact Option.some.inj h ▸ h₁

theorem findLink_isSome (hx : (x, true, true) ∈ s.links.map ImepLink.status) :
    (s.findLink x).isSome := by
  obtain ⟨l, hl, heq⟩ := mem_map.1 hx
  obtain ⟨b, hb⟩ := exists_findKey ImepLink.index hl
  have hlx : l.index = x := (Prod.mk.inj heq).1
  rw [findLink, ← hlx, hb]
  rfl

theorem imepSetLinkDownStatus_of_none (h : s.findLink x = none) : s.imepSetLinkDownStatus x = s := by
  rw [imepSetLinkDownStatus, h]

/-- What `imepSetLinkDownStatus` does to the queue, the links and the routing layer. -/
theorem imepSetLinkDownStatus_of_some (h : (s.findLink x).isSome) :
    (s.imepSetLinkDownStatus x).rexmitq = (s.purgeReXmitQ x).rexmitq ∧
      (s.imepSetLinkDownStatus x).controlSequence = s.controlSequence ∧
      (s.imepSetLinkDownStatus x).links = updateKey ImepLink.index x ImepLink.setDown s.links ∧
      (s.imepSetLinkDownStatus x).rtagent = s.rtagent ++ [.linkDown x] := by
  obtain ⟨l, hl⟩ := Option.isSome_iff_exists.1 h
  rw [imepSetLinkDownStatus, hl]
  exact ⟨rfl, rfl, rfl, rfl⟩

/-- The invariant up to the link to `x`. -/
structure SoundBut (x : ℤ) (s : ImepAgent) : Prop where
  links : (s.links.map ImepLink.index).Nodup
  numbers : (s.rexmitq.map Rexent.number).Nodup
  made : ∀ r ∈ s.rexmitq, r.number ≤ s.controlSequence
  good : ∀ r ∈ s.rexmitq, GoodEntry r
  bi : ∀ r ∈ s.rexmitq, ∀ y ∈ r.block.responses, y ≠ x →
    (y, true, true) ∈ s.links.map ImepLink.status

theorem Sound.but (h : s.Sound) (x : ℤ) : SoundBut x s :=
  ⟨h.links, h.numbers, h.made, h.good, fun r hr y hy _ => h.bi r hr y hy⟩

theorem SoundBut.sound (h : SoundBut x s)
    (hx : ∀ r ∈ s.rexmitq, x ∈ r.block.responses → (x, true, true) ∈ s.links.map ImepLink.status) :
    s.Sound := by
  refine ⟨h.links, h.numbers, h.made, h.good, fun r hr y hy => ?_⟩
  by_cases hyx : y = x
  · subst hyx
    exact hx r hr hy
  · exact h.bi r hr y hy hyx

theorem SoundBut.setLink (h : SoundBut x s) (hf : ∀ l, (f l).index = l.index) :
    SoundBut x (s.setLink x f) := by
  refine ⟨?_, h.numbers, h.made, h.good, fun r hr y hy hyx => ?_⟩
  · have hkeys : ∀ l : ImepLink, l.index = x → (f l).index = x := fun l hl => (hf l).trans hl
    rw [ImepAgent.setLink, map_updateKey hkeys]
    exact h.links
  · obtain ⟨l, hl, heq⟩ := mem_map.1 (h.bi r hr y hy hyx)
    have hly : l.index = y := (Prod.mk.inj heq).1
    exact mem_map.2 ⟨l, (mem_updateKey h.links).2 (Or.inl ⟨hl, hly ▸ hyx⟩), heq⟩

theorem SoundBut.eraseLink (h : SoundBut x s) (hx : ∀ r ∈ s.rexmitq, x ∉ r.block.responses) :
    Sound { s with links := eraseKey ImepLink.index x s.links } := by
  refine ⟨nodup_eraseKey h.links, h.numbers, h.made, h.good, fun r hr y hy => ?_⟩
  have hyx : y ≠ x := fun heq => hx r hr (heq ▸ hy)
  obtain ⟨l, hl, heq⟩ := mem_map.1 (h.bi r hr y hy hyx)
  have hly : l.index = y := (Prod.mk.inj heq).1
  exact mem_map.2 ⟨l, (mem_eraseKey h.links).2 ⟨hl, hly ▸ hyx⟩, heq⟩

theorem SoundBut.imepSetLinkDownStatus (hs : SoundBut x s) (hx : (s.findLink x).isSome)
    (hc : ∀ r ∈ s.rexmitq, r.block.Clean x) : (s.imepSetLinkDownStatus x).Sound ∧
      Drops (fun _ => True) x s.rexmitq (s.imepSetLinkDownStatus x).rexmitq := by
  obtain ⟨hq, hseq, hlinks, -⟩ := imepSetLinkDownStatus_of_some hx
  have hd := drops_purgeReXmitQ hs.good hc
  rw [← hq] at hd
  refine ⟨⟨?_, hs.numbers.sublist hd.numbers, fun r' hr' => ?_, hd.good, fun r' hr' y hy => ?_⟩, hd⟩
  · have hkeys : ∀ l : ImepLink, l.index = x → l.setDown.index = x := fun _ h => h
    rw [hlinks, map_updateKey hkeys]
    exact hs.links
  · obtain ⟨r, hr, hnum, -⟩ := hd.of_mem r' hr'
    rw [hnum, hseq]
    exact hs.made r hr
  · obtain ⟨r, hr, -, hmem⟩ := hd.of_mem r' hr'
    obtain ⟨hyr, hne⟩ := hmem y hy
    obtain ⟨l, hl, heq⟩ := mem_map.1 (hs.bi r hr y hyr (hne trivial))
    rw [hlinks]
    have hly : l.index = y := (Prod.mk.inj heq).1
    exact mem_map.2 ⟨l, (mem_updateKey hs.links).2 (Or.inl ⟨hl, hly ▸ hne trivial⟩), heq⟩

theorem perm_insertRexent (r : Rexent) (l : List Rexent) : (insertRexent r l).Perm (r :: l) := by
  induction l with
  | nil => exact Perm.refl _
  | cons i l ih =>
    rw [insertRexent]
    split_ifs
    · exact Perm.refl _
    · exact (ih.cons i).trans (Perm.swap r i l)

theorem biLinks_nodup (hn : (s.links.map ImepLink.index).Nodup) : s.biLinks.Nodup :=
  hn.sublist (filter_sublist.map _)

theorem mem_biLinks (hx : x ∈ s.biLinks) : (x, true, true) ∈ s.links.map ImepLink.status := by
  obtain ⟨l, hl, rfl⟩ := mem_map.1 hx
  obtain ⟨hl, hbi⟩ := mem_filter.1 hl
  rw [ImepLink.isBi, Bool.and_eq_true] at hbi
  exact mem_map.2 ⟨l, hl, by rw [ImepLink.status, hbi.1, hbi.2]⟩

theorem responses_getD {l : List ℤ} {memory : ℕ → ℤ} (n : ℕ) (hl : l.length < 32) :
    ObjectBlock.responses ⟨n, l.length % 32, fun i => l.getD i (memory i)⟩ = l := by
  rw [ObjectBlock.responses, Nat.mod_eq_of_lt hl]
  refine ext_getElem (by simp) fun i hi hi' => ?_
  simp [getElem?_eq_getElem hi']

theorem aggregateObjectBlock_keeps (memory : ℕ → ℤ) (hs : s.Sound) (hL : Asking s.rexmitq L)
    (ht : s.biLinks.length < 32 ∨ s.biLinks.length % 32 = 0) (calls : List Upcall) :
    (s.aggregateObjectBlock memory).Sound ∧
      Asking (s.aggregateObjectBlock memory).rexmitq (L.record s (.send memory) calls) := by
  rw [aggregateObjectBlock]
  rw [show ImepAgent.biLinks { s with controlSequence := s.controlSequence + 1 } = s.biLinks from rfl]
  have hsound : Sound { s with controlSequence := s.controlSequence + 1 } :=
    ⟨hs.links, hs.numbers, fun r hr => (hs.made r hr).trans (Nat.le_succ _), hs.good, hs.bi⟩
  by_cases hpos : s.biLinks.length % 32 > 0
  · rw [if_pos hpos]
    have hlt : s.biLinks.length < 32 := ht.resolve_right hpos.ne'
    set ob : ObjectBlock := ⟨s.controlSequence + 1, s.biLinks.length % 32,
      fun i => s.biLinks.getD i (memory i)⟩ with hob
    have hresp : ob.responses = s.biLinks := responses_getD _ hlt
    have hperm := perm_insertRexent ⟨s.now + retransPeriod, maxRexmits, ob⟩ s.rexmitq
    have hfresh : s.controlSequence + 1 ∉ s.rexmitq.map Rexent.number := fun h => by
      obtain ⟨r, hr, hnum⟩ := mem_map.1 h
      exact absurd (hs.made r hr) (by omega)
    have hcases : ∀ r ∈ insertRexent ⟨s.now + retransPeriod, maxRexmits, ob⟩ s.rexmitq,
        r.block = ob ∨ r ∈ s.rexmitq := fun r hr =>
      (mem_cons.1 (hperm.mem_iff.1 hr)).imp_left fun h => congrArg Rexent.block h
    refine ⟨⟨hs.links, ?_, fun r hr => ?_, fun r hr => ?_, fun r hr x hx => ?_⟩, fun a ha x hx => ?_⟩
    · exact ((hperm.map Rexent.number).nodup_iff).2 (nodup_cons.2 ⟨hfresh, hs.numbers⟩)
    · rcases hcases r hr with hb | hr
      · exact (show r.number = s.controlSequence + 1 by rw [Rexent.number, hb]).le
      · exact hsound.made r hr
    · rcases hcases r hr with hb | hr
      · exact ⟨hb ▸ hresp ▸ biLinks_nodup hs.links, hb ▸ hpos⟩
      · exact hs.good r hr
    · rcases hcases r hr with hb | hr
      · rw [hb, hresp] at hx
        exact mem_biLinks hx
      · exact hs.bi r hr x hx
    · simp only [Ledger.record, if_pos hpos] at ha ⊢
      rcases mem_cons.1 ha with rfl | ha
      · refine Or.inr ⟨⟨s.now + retransPeriod, maxRexmits, ob⟩, hperm.mem_iff.2 mem_cons_self,
          rfl, ?_⟩
        exact hresp.symm ▸ hx
      · refine (hL a ha x hx).imp (mem_append_left _) fun hasked => ?_
        obtain ⟨r, hr, h⟩ := hasked
        exact ⟨r, hperm.mem_iff.2 (mem_cons_of_mem _ hr), h⟩
  · rw [if_neg hpos]
    refine ⟨hsound, hL.mono ?_ (record_cleared _ _)⟩
    simp only [Ledger.record, if_neg hpos]

theorem imepSetLinkDownStatus_keeps (hs : SoundBut x s) (hL : Asking s.rexmitq L)
    (hx : (s.findLink x).isSome) (ht : ∀ r ∈ s.rexmitq, r.block.Clean x) (L' : Ledger)
    (hasked : L'.asked = L.asked) (hmono : ∀ p ∈ L.cleared, p ∈ L'.cleared)
    (hrec : ∀ y ∈ setDown (s.imepSetLinkDownStatus x).rtagent, ∀ a ∈ L.asked, (a.1, y) ∈ L'.cleared)
    :
    (s.imepSetLinkDownStatus x).Sound ∧ Asking (s.imepSetLinkDownStatus x).rexmitq L' ∧
      ∀ r ∈ (s.imepSetLinkDownStatus x).rexmitq, x ∉ r.block.responses := by
  obtain ⟨hsound, hd⟩ := hs.imepSetLinkDownStatus hx ht
  refine ⟨hsound, hL.drops hd hasked hmono fun a ha _ => hrec x ?_ a ha, fun r' hr' hmem => ?_⟩
  · rw [(imepSetLinkDownStatus_of_some hx).2.2.2, setDown_append]
    exact mem_append_right _ (mem_singleton_self x)
  · obtain ⟨r, -, -, h⟩ := hd.of_mem r' hr'
    exact (h x hmem).2 trivial rfl

theorem findLink_setLink (f : ImepLink → ImepLink) (hf : ∀ l, (f l).index = l.index) :
    (s.setLink x f).findLink x = (s.findLink x).map f := by
  rw [findLink, setLink, findKey_updateKey fun l hl => (hf l).trans hl, if_pos rfl]
  rfl

theorem Sound.isBi (hs : s.Sound) {r : Rexent} (hr : r ∈ s.rexmitq) (hx : x ∈ r.block.responses)
    {l : ImepLink} (hl : s.findLink x = some l) : l.isBi := by
  obtain ⟨l', hl', heq⟩ := mem_map.1 (hs.bi r hr x hx)
  obtain ⟨hlx, hin, hout⟩ : l'.index = x ∧ l'.linkIn = true ∧ l'.linkOut = true := by
    simpa [ImepLink.status] using heq
  have hfind := findKey_of_mem hs.links hl'
  rw [hlx] at hfind
  obtain rfl := Option.some.inj (hl.symm.trans hfind)
  rw [ImepLink.isBi, hin, hout]
  rfl

theorem purgeLink_keeps (hs : s.Sound) (hL : Asking s.rexmitq L)
    (ht : LosesBi s x → ∀ r ∈ s.rexmitq, r.block.Clean x) (L' : Ledger)
    (hasked : L'.asked = L.asked) (hmono : ∀ p ∈ L.cleared, p ∈ L'.cleared)
    (hrec : ∀ y ∈ setDown (s.purgeLink x).rtagent, ∀ a ∈ L.asked, (a.1, y) ∈ L'.cleared) :
    (s.purgeLink x).Sound ∧ Asking (s.purgeLink x).rexmitq L' := by
  cases hl : s.findLink x with
  | none =>
    rw [purgeLink, hl]
    exact ⟨hs, hL.mono hasked hmono⟩
  | some l =>
    have hbut : SoundBut x (s.setLink x (ImepLink.expire s.now)) := (hs.but x).setLink fun _ => rfl
    have hfind : (s.setLink x (ImepLink.expire s.now)).findLink x = some (l.expire s.now) := by
      rw [findLink_setLink (ImepLink.expire s.now) fun _ => rfl, hl]
      rfl
    rw [purgeLink, hl] at hrec ⊢
    simp only [hfind, Option.any_some, Bool.and_eq_true, Bool.not_eq_true'] at hrec ⊢
    by_cases hlost : l.isBi = true ∧ (l.expire s.now).isBi = false
    · rw [if_pos hlost] at hrec ⊢
      have hloses : LosesBi s x := by
        refine ⟨l, hl, hlost.1, ?_⟩
        by_contra hnot
        rw [not_or] at hnot
        have hin := hlost.1
        rw [ImepLink.isBi, Bool.and_eq_true] at hin
        have hexp := hlost.2
        simp [ImepLink.isBi, ImepLink.expire, hin.1, hin.2, hnot.1, hnot.2] at hexp
      have hdown := imepSetLinkDownStatus_keeps hbut hL (by rw [hfind]; rfl) (ht hloses) L' hasked
        hmono
      split_ifs at hrec ⊢
      · obtain ⟨hsound, hask, hgone⟩ := hdown hrec
        exact ⟨(hsound.but x).eraseLink hgone, hask⟩
      · obtain ⟨hsound, hask, -⟩ := hdown hrec
        exact ⟨hsound, hask⟩
    · rw [if_neg hlost, hfind]
      have hbi : ∀ r ∈ s.rexmitq, x ∈ r.block.responses → (l.expire s.now).isBi = true := by
        intro r hr hx
        by_contra hnot
        exact hlost ⟨hs.isBi hr hx hl, Bool.eq_false_iff.2 hnot⟩
      rw [Option.any_some]
      split_ifs with hdown
      · refine ⟨hbut.eraseLink fun r hr hx => ?_, hL.mono hasked hmono⟩
        have := hbi r hr hx
        simp only [ImepLink.isBi, ImepLink.isDown, Bool.and_eq_true, Bool.not_eq_true'] at this hdown
        rw [this.1] at hdown
        exact absurd hdown.1 (by decide)
      · refine ⟨hbut.sound fun r hr hx => ?_, hL.mono hasked hmono⟩
        obtain ⟨hmem, hindex⟩ := mem_of_findKey hfind
        have := hbi r hr hx
        rw [ImepLink.isBi, Bool.and_eq_true] at this
        exact mem_map.2 ⟨_, hmem, by rw [ImepLink.status, hindex, this.1, this.2]⟩

theorem removeObjectResponse_frame (ob : ObjectBlock) :
    (s.removeObjectResponse ob x).controlSequence = s.controlSequence ∧
      (s.removeObjectResponse ob x).links = s.links := by
  rw [removeObjectResponse]
  split <;> exact ⟨rfl, rfl⟩

theorem Sound.drops {P : ℕ → Prop} (hs : s.Sound) (hd : Drops P x s.rexmitq s'.rexmitq)
    (hseq : s'.controlSequence = s.controlSequence) (hlinks : s'.links = s.links) : s'.Sound := by
  refine ⟨hlinks ▸ hs.links, hs.numbers.sublist hd.numbers, fun r' hr' => ?_, hd.good,
    fun r' hr' y hy => ?_⟩
  · obtain ⟨r, hr, hnum, -⟩ := hd.of_mem r' hr'
    rw [hnum, hseq]
    exact hs.made r hr
  · obtain ⟨r, hr, -, hmem⟩ := hd.of_mem r' hr'
    exact hlinks ▸ hs.bi r hr y (hmem y hy).1

/-- An acknowledgement removes its sender from the response list of the packet it is for. -/
theorem imepAckInput_keeps (hs : s.Sound) (hL : Asking s.rexmitq L)
    (ht : ∀ r, findKey Rexent.sequence (number % 256) s.rexmitq = some r →
      r.number = number ∧ r.block.Clean x) (h : s.imepAckInput x number = some s') (L' : Ledger)
    (hasked : L'.asked = L.asked) (hmono : ∀ p ∈ L.cleared, p ∈ L'.cleared)
    (hrec : number ≤ s.controlSequence → (number, x) ∈ L'.cleared) :
    s'.Sound ∧ Asking s'.rexmitq L' := by
  rw [imepAckInput, findObjectSequence] at h
  cases hfind : findKey Rexent.sequence (number % 256) s.rexmitq with
  | none =>
    rw [hfind] at h
    exact Option.some.inj h ▸ ⟨hs, hL.mono hasked hmono⟩
  | some r =>
    obtain ⟨hnum, hc⟩ := ht r hfind
    have hr := (mem_of_findKey hfind).1
    rw [hfind] at h
    simp only [(hs.good r hr).pos.ne', if_false] at h
    have hkept := linksKept_imepSetLinkBiStatus h
    have hd := drops_removeObjectResponse hs.good hs.numbers hr hc
    obtain ⟨hseq, hlinks⟩ := removeObjectResponse_frame (s := s) (x := x) r.block
    refine ⟨hkept.sound (hs.drops hd hseq hlinks), ?_⟩
    rw [hkept.queue]
    refine hL.drops hd hasked hmono fun a _ heq => ?_
    rw [show a.1 = number from heq.trans hnum]
    exact hrec (hnum ▸ hs.made r hr)

theorem restartReXmitTimer_frame : s.restartReXmitTimer.rexmitq = s.rexmitq ∧
    s.restartReXmitTimer.controlSequence = s.controlSequence ∧
    s.restartReXmitTimer.links = s.links ∧ s.restartReXmitTimer.rtagent = s.rtagent := by
  rw [restartReXmitTimer]
  split <;> exact ⟨rfl, rfl, rfl, rfl⟩

theorem puntNeighbors_of_one {e : Rexent} {rest : List Rexent} (hq : s.rexmitq = e :: rest)
    (hone : e.block.numResponses = 1) :
    puntNeighbors e.number e.block.numResponses 0 s = s.imepSetLinkDownStatus (e.block.resp 0) := by
  have hfind : findKey Rexent.number e.number s.rexmitq = some e := by
    rw [hq, findKey_cons, if_pos rfl]
  rw [hone, puntNeighbors, hfind]
  simp only [hone, zero_lt_one, if_true]
  rfl

theorem handlerReXmitTimer_keeps (hs : s.Sound) (hL : Asking s.rexmitq L)
    (ht : ∀ r rest, s.rexmitq = r :: rest → r.rexmitsLeft = 0 →
      r.block.numResponses = 1 ∧ ∀ r' ∈ s.rexmitq, r'.block.Clean (r.block.resp 0)) (L' : Ledger)
    (hasked : L'.asked = L.asked) (hmono : ∀ p ∈ L.cleared, p ∈ L'.cleared)
    (hrec : ∀ y ∈ setDown s.handlerReXmitTimer.rtagent, ∀ a ∈ L.asked, (a.1, y) ∈ L'.cleared) :
    s.handlerReXmitTimer.Sound ∧ Asking s.handlerReXmitTimer.rexmitq L' ∧
      ∀ r rest, s.rexmitq = r :: rest → r.rexmitsLeft = 0 →
        (∀ x ∈ r.block.responses, x ∈ setDown s.handlerReXmitTimer.rtagent) ∧
          ∀ r' ∈ s.handlerReXmitTimer.rexmitq, r'.number ≠ r.number := by
  cases hq : s.rexmitq with
  | nil =>
    rw [handlerReXmitTimer, hq]
    exact ⟨hs, hL.mono hasked hmono, nofun⟩
  | cons e rest =>
    rw [handlerReXmitTimer, hq] at hrec ⊢
    dsimp only at hrec ⊢
    by_cases hleft : e.rexmitsLeft = 0
    · obtain ⟨hone, hclean⟩ := ht e rest hq hleft
      rw [if_pos hleft, puntNeighbors_of_one hq hone] at hrec ⊢
      obtain ⟨hqr, hseq, hlinks, hrt⟩ :=
        restartReXmitTimer_frame (s := s.imepSetLinkDownStatus (e.block.resp 0))
      have hresp : e.block.responses = [e.block.resp 0] := by
        rw [ObjectBlock.responses, hone]
        rfl
      have hmem : e.block.resp 0 ∈ e.block.responses := hresp ▸ mem_singleton_self _
      have he : e ∈ s.rexmitq := hq ▸ mem_cons_self
      have hfind := findLink_isSome (hs.bi e he _ hmem)
      rw [hrt] at hrec
      obtain ⟨hsound, hask, hgone⟩ := imepSetLinkDownStatus_keeps (hs.but _) hL hfind hclean L' hasked
        hmono hrec
      refine ⟨hsound.of_perm (hqr ▸ Perm.refl _) hseq hlinks, hqr ▸ hask, ?_⟩
      rintro r rest' heq -
      obtain ⟨rfl, rfl⟩ := List.cons.inj heq
      rw [hqr, hrt]
      refine ⟨fun x hx => ?_, fun r' hr' hnum => ?_⟩
      · rw [(imepSetLinkDownStatus_of_some hfind).2.2.2, setDown_append]
        rw [hresp] at hx
        exact mem_append_right _ hx
      · -- what is left of the packet has no neighbour in its list, so nothing is left
        obtain ⟨r₀, hr₀, hnum₀, hsub⟩ := ((hs.but _).imepSetLinkDownStatus hfind hclean).2.of_mem r' hr'
        obtain rfl : r₀ = e := inj_on_of_nodup_map hs.numbers hr₀ he (hnum₀.symm.trans hnum)
        have hpos := (hsound.good r' hr').pos
        have hin : r'.block.resp 0 ∈ r'.block.responses :=
          ObjectBlock.mem_responses.2 ⟨0, hpos, rfl⟩
        obtain ⟨hold, hne⟩ := hsub _ hin
        rw [hresp, mem_singleton] at hold
        exact hne trivial hold
    · rw [if_neg hleft] at hrec ⊢
      generalize hs₁ : (if e.rexmitAt ≤ s.now then
        { s with rexmitq := insertRexent ⟨s.now + retransPeriod, e.rexmitsLeft - 1, e.block⟩ rest }
        else s) = s₁
      have hperm : (s₁.rexmitq.map Rexent.block).Perm (s.rexmitq.map Rexent.block) ∧
          s₁.controlSequence = s.controlSequence ∧ s₁.links = s.links := by
        subst hs₁
        split_ifs
        · refine ⟨?_, rfl, rfl⟩
          rw [hq]
          exact (perm_insertRexent _ rest).map Rexent.block
        · exact ⟨Perm.refl _, rfl, rfl⟩
      obtain ⟨hqr, hseq, hlinks, -⟩ := restartReXmitTimer_frame (s := s₁)
      refine ⟨hs.of_perm (hqr ▸ hperm.1) (hseq.trans hperm.2.1) (hlinks.trans hperm.2.2),
        (hL.mono hasked hmono).of_perm (hqr ▸ hperm.1), ?_⟩
      intro r rest' heq hzero
      exact absurd ((List.cons.inj heq).1 ▸ hzero) hleft

end ImepAgent

theorem step_keeps {s s' : ImepAgent} {L : Ledger} {e : ImepEvent} {calls : List Upcall}
    (hs : s.Sound) (hL : Asking s.rexmitq L) (ht : Tidy s e) (h : imep.step s e = some (s', calls)) :
    s'.Sound ∧ Asking s'.rexmitq (L.record s e calls) ∧ GivesUp s e s' calls := by
  obtain ⟨s₁, hh, heq⟩ := Option.map_eq_some_iff.1 h
  obtain ⟨rfl, rfl⟩ := Prod.mk.inj heq
  set s₀ : ImepAgent := { s with rtagent := [] } with hs₀
  have hsound : s₀.Sound := hs.of_perm (Perm.refl _) rfl rfl
  have hmono := record_cleared (s := s) (L := L) e s₁.rtagent
  have hdown : ∀ y ∈ setDown s₁.rtagent, ∀ a ∈ (L.record s e s₁.rtagent).asked,
      (a.1, y) ∈ (L.record s e s₁.rtagent).cleared := fun y hy => record_setDown e hy
  cases e with
  | tick t =>
    refine ⟨?_, ?_, fun hf => hf.elim⟩
    all_goals obtain rfl := Option.some.inj hh
    · split_ifs
      · exact hsound.of_perm (Perm.refl _) rfl rfl
      · exact hsound
    · refine Asking.mono (L := L) ?_ rfl hmono
      split_ifs
      · exact hL
      · exact hL
  | send memory =>
    obtain rfl := Option.some.inj hh
    obtain ⟨hsound', hask⟩ := ImepAgent.aggregateObjectBlock_keeps memory hsound hL ht
      (s₀.aggregateObjectBlock memory).rtagent
    exact ⟨hsound', hask, fun hf => hf.elim⟩
  | recv src block =>
    have hin := ImepAgent.linksKept_imepSetLinkInStatus (s := s₀) (x := src)
    have hsoundIn := hin.sound hsound
    refine and_assoc.1 ⟨?_, fun hf => hf.elim⟩
    cases block with
    | beacon =>
      obtain rfl := Option.some.inj hh
      exact ⟨hsoundIn, Asking.mono (L := L) (hin.queue ▸ hL) rfl hmono⟩
    | ack number =>
      have hasked : (L.record s (.recv src (.ack number)) s₁.rtagent).asked = L.asked := by
        rw [Ledger.record]
        split_ifs <;> rfl
      refine ImepAgent.imepAckInput_keeps hsoundIn (hin.queue ▸ hL) ?_ hh _ hasked hmono fun hle => ?_
      · rw [hin.queue]
        exact ht
      · exact record_ack (hin.sequence ▸ hle) s₁.rtagent
    | hello =>
      have hbi := hin.trans (ImepAgent.linksKept_imepSetLinkBiStatus hh)
      exact ⟨hbi.sound hsound, Asking.mono (L := L) (hbi.queue ▸ hL) rfl hmono⟩
    | object number =>
      have hobj := hin.trans (ImepAgent.linksKept_imepObjectInput hh)
      exact ⟨hobj.sound hsound, Asking.mono (L := L) (hobj.queue ▸ hL) rfl hmono⟩
  | undeliverable x =>
    obtain rfl := Option.some.inj hh
    refine and_assoc.1 ⟨?_, fun hf => hf.elim⟩
    cases hx : s₀.findLink x with
    | none =>
      rw [ImepAgent.imepSetLinkDownStatus_of_none hx] at hmono ⊢
      exact ⟨hsound, Asking.mono (L := L) hL rfl hmono⟩
    | some l =>
      have hsome : (s₀.findLink x).isSome := by rw [hx]; rfl
      obtain ⟨hsound', hask, -⟩ := ImepAgent.imepSetLinkDownStatus_keeps (hsound.but x) hL hsome
        (ht hsome) (L.record s (.undeliverable x) _) rfl hmono hdown
      exact ⟨hsound', hask⟩
  | purge x =>
    obtain rfl := Option.some.inj hh
    refine and_assoc.1 ⟨?_, fun hf => hf.elim⟩
    exact ImepAgent.purgeLink_keeps hsound hL ht (L.record s (.purge x) _) rfl hmono hdown
  | rexmitTimer =>
    rw [ImepAgent.handle] at hh
    split_ifs at hh with hdue
    · obtain rfl := Option.some.inj hh
      have hsound' : ImepAgent.Sound { s₀ with rexmitTimer := none } :=
        hsound.of_perm (Perm.refl _) rfl rfl
      obtain ⟨hs', hask, hex⟩ := ImepAgent.handlerReXmitTimer_keeps hsound' hL
        (fun r rest hq hleft => ht hdue r (by rw [show s.rexmitq = r :: rest from hq]; rfl) hleft)
        (L.record s .rexmitTimer _) rfl hmono hdown
      refine ⟨hs', hask, fun _ r hq hleft => ?_⟩
      obtain ⟨rest, hq⟩ := head?_eq_some_iff.1 hq
      exact hex r rest hq hleft
    · obtain rfl := Option.some.inj hh
      exact ⟨hsound, Asking.mono (L := L) hL rfl hmono, fun hf => absurd hf hdue⟩
  | incomingTimer =>
    refine and_assoc.1 ⟨?_, fun hf => hf.elim⟩
    rw [ImepAgent.handle] at hh
    split_ifs at hh
    · have hkept := ImepAgent.linksKept_handlerIncomingTimer hh
      have hsound' : ImepAgent.Sound { s₀ with incomingTimer := none } :=
        hsound.of_perm (Perm.refl _) rfl rfl
      exact ⟨hkept.sound hsound', Asking.mono (L := L) (hkept.queue ▸ hL) rfl hmono⟩
    · obtain rfl := Option.some.inj hh
      exact ⟨hsound, Asking.mono (L := L) hL rfl hmono⟩

theorem sound_init : ImepAgent.init.Sound :=
  ⟨nodup_nil, nodup_nil, nofun, nofun, nofun⟩

/-- In a run whose events are all tidy the retransmission queue does what it is for. -/
theorem reliable_of_tidy (es : List ImepEvent)
    (h : imepLedger.RunsWith (fun sL e => Tidy sL.1 e) (.init, ⟨[], []⟩) es) :
    imepLedger.RunsWith Reliable (.init, ⟨[], []⟩) es := by
  have hstep : ∀ (sL : ImepAgent × Ledger) e sL' calls, sL.1.Sound ∧ Asking sL.1.rexmitq sL.2 →
      Tidy sL.1 e → imepLedger.step sL e = some (sL', calls) →
        sL'.1.Sound ∧ Asking sL'.1.rexmitq sL'.2 ∧ GivesUp sL.1 e sL'.1 calls := by
    intro sL e sL' calls hI ht hst
    obtain ⟨r, hr, heq⟩ := Option.map_eq_some_iff.1 hst
    obtain ⟨rfl, rfl⟩ := Prod.mk.inj heq
    exact step_keeps hI.1 hI.2 ht hr
  refine h.imp (I := fun sL => sL.1.Sound ∧ Asking sL.1.rexmitq sL.2) (fun sL e hI ht out hst => ?_)
    (fun sL e sL' calls hI ht hst => ?_) ⟨sound_init, nofun⟩
  · obtain ⟨-, hask, hex⟩ := hstep sL e out.1 out.2 hI ht hst
    exact ⟨hask.keepsAsking, hex⟩
  · obtain ⟨hs', hL', -⟩ := hstep sL e sL' calls hI ht hst
    exact ⟨hs', hL'⟩

/-- Two neighbours hear us and are heard. -/
def twoNeighbors : List ImepEvent := [.recv 1 .hello, .recv 2 .hello]

/-- A packet that both acknowledge, the second one after a retransmission, and one that the second one
never acknowledges. -/
def tidyEvents : List ImepEvent :=
  twoNeighbors ++ [.send fun _ => 0, .recv 1 (.ack 1), .tick (1 / 2), .rexmitTimer, .recv 2 (.ack 1),
    .send fun _ => 0, .recv 1 (.ack 2), .tick 1, .rexmitTimer, .tick (3 / 2), .rexmitTimer, .tick 2,
    .rexmitTimer]

theorem reliable_of_tidy_tidyEvents :
    imepLedger.RunsWith (fun sL e => Tidy sL.1 e) (.init, ⟨[], []⟩) tidyEvents ∧
      imepLedger.RunsWith Reliable (.init, ⟨[], []⟩) tidyEvents := by
  have ht : imepLedger.RunsWith (fun sL e => Tidy sL.1 e) (.init, ⟨[], []⟩) tidyEvents := by
    decide +kernel
  exact ⟨ht, reliable_of_tidy tidyEvents ht⟩

/-- The second copy of an acknowledgement finds its sender behind the end of the list and takes out the
other neighbour; and one invocation of the timer only sets down one of two neighbours. -/
theorem not_reliable_secondAck :
    ¬imepLedger.RunsWith Reliable (.init, ⟨[], []⟩)
        (twoNeighbors ++ [.send fun _ => 0, .recv 1 (.ack 1), .recv 1 (.ack 1)]) ∧
      ¬imepLedger.RunsWith Reliable (.init, ⟨[], []⟩)
        (twoNeighbors ++ [.send fun _ => 0, .tick (1 / 2), .rexmitTimer, .tick 1, .rexmitTimer,
          .tick (3 / 2), .rexmitTimer]) := by
  decide +kernel

end Ns2.Imep
