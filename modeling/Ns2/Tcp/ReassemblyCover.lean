import Ns2.Tcp.ReassemblyQueue

/-! The blocks of a `ReassemblyQueue`, and what a new block makes of them that overlaps none. -/

namespace Ns2.ReassemblyQueue

open Ranges List Function

def block (s : ReassemblyQueue) (p : ℕ) : ℤ × ℤ := (s.startseq p, s.endseq p)

/-- The blocks of the FIFO are sorted and do not touch, and `total_` counts them. -/
structure Holds (s : ReassemblyQueue) (F : List ℕ) : Prop where
  rep : ∃ L G, s.Rep F L G
  apart : Apart (F.map s.block)
  total : s.total = ↑(size (F.map s.block))

/-- `rcv_nxt_` was `rcvNxt` and has been left there, or moved to the end of the block that it
reached. -/
structure Covers (s : ReassemblyQueue) (C : Finset ℤ) (rcvNxt : ℤ) (F : List ℕ) : Prop extends
    Holds s F where
  cover : cover (F.map s.block) = C
  moved : s.rcvNxt = rcvNxt ∨ ∃ p ∈ F, s.startseq p ≤ rcvNxt ∧ s.rcvNxt = s.endseq p

/-- `[sseq, eseq)` has been put in. When `sseq` is new, it is the block around it that may have moved
`rcv_nxt_`. -/
structure Adds (s : ReassemblyQueue) (C : Finset ℤ) (sseq eseq rcvNxt : ℤ) (F : List ℕ) : Prop
    extends Covers s (C ∪ Finset.Ico sseq eseq) rcvNxt F where
  reached : sseq ∉ C → ∃ p ∈ F, s.startseq p ≤ sseq ∧ sseq < s.endseq p ∧
    (s.startseq p ≤ rcvNxt → s.rcvNxt = s.endseq p)

variable {s s' : ReassemblyQueue} {F L G A B : List ℕ} {n p q : ℕ} {C : Finset ℤ}
  {rcvNxt sseq eseq : ℤ}

theorem Covers.adds (h : s.Covers (C ∪ Finset.Ico sseq eseq) rcvNxt F) (hmem : sseq ∈ C) :
    s.Adds C sseq eseq rcvNxt F :=
  ⟨h, fun hnew => absurd hmem hnew⟩

theorem Adds.superset {C' : Finset ℤ} (h : s.Adds C sseq eseq rcvNxt F) (hsub : C ⊆ C')
    (heq : C ∪ Finset.Ico sseq eseq = C' ∪ Finset.Ico sseq eseq) :
    s.Adds C' sseq eseq rcvNxt F :=
  ⟨heq ▸ h.toCovers, fun hnew => h.reached fun hmem => hnew (hsub hmem)⟩

theorem Holds.advance (h : s.Holds F) (hp : p ∈ F) (hC : Ranges.cover (F.map s.block) = C) :
    (s.advance p).Covers C s.rcvNxt F where
  rep := by
    obtain ⟨L, G, hrep⟩ := h.rep
    exact ⟨L, G, hrep.congr rfl rfl rfl rfl⟩
  apart := h.apart
  total := h.total
  cover := hC
  moved := by
    by_cases hge : s.rcvNxt ≥ s.startseq p
    · exact Or.inr ⟨p, hp, hge, if_pos hge⟩
    · exact Or.inl (if_neg hge)

theorem Holds.advance_adds (h : s.Holds F) (hp : p ∈ F)
    (hC : Ranges.cover (F.map s.block) = C ∪ Finset.Ico sseq eseq)
    (hsseq : (s.block p).1 ≤ sseq ∧ sseq < (s.block p).2) :
    (s.advance p).Adds C sseq eseq s.rcvNxt F :=
  ⟨h.advance hp hC, fun _ => ⟨p, hp, hsseq.1, hsseq.2, fun hle => if_pos hle⟩⟩

theorem map_block_update (hnodup : (A ++ p :: B).Nodup)
    (hblock : ∀ q, q ≠ p → s'.block q = s.block q) :
    (A ++ p :: B).map s'.block = A.map s.block ++ s'.block p :: B.map s.block := by
  rw [nodup_middle, nodup_cons, mem_append, not_or] at hnodup
  have hne : ∀ l : List ℕ, p ∉ l → l.map s'.block = l.map s.block := fun l hl =>
    map_congr_left fun q hq => hblock q (ne_of_mem_of_not_mem hq hl)
  rw [map_append, map_cons, hne A hnodup.1.1, hne B hnodup.1.2]

theorem Rep.adds {t : ReassemblyQueue} {b : ℤ × ℤ} (h : t.Rep (A ++ p :: B) L G)
    (hfifo : s'.fifo = t.fifo) (hlifo : s'.lifo = t.lifo) (hfree : s'.freelist = t.freelist)
    (hfresh : s'.fresh = t.fresh) (hrcv : s'.rcvNxt = s.rcvNxt)
    (hother : ∀ q, q ≠ p → s'.block q = s.block q) (hb : s'.block p = b)
    (hapart : Apart (A.map s.block ++ b :: B.map s.block))
    (htotal : s'.total = ↑(size (A.map s.block ++ b :: B.map s.block)))
    (hcover : Ranges.cover (A.map s.block ++ b :: B.map s.block) = C ∪ Finset.Ico sseq eseq)
    (hsseq : b.1 ≤ sseq ∧ sseq < b.2) :
    (s'.advance p).Adds C sseq eseq s.rcvNxt (A ++ p :: B) := by
  have h' : s'.Rep (A ++ p :: B) L G := h.congr hfifo hlifo hfree hfresh
  have hmap := map_block_update h'.fifo.nodup hother
  rw [hb] at hmap
  rw [← hmap] at hapart htotal hcover
  rw [← hrcv]
  exact Holds.advance_adds ⟨⟨L, G, h'⟩, hapart, htotal⟩ (by simp) hcover (hb ▸ hsseq)

theorem Loose.mono {F' : List ℕ} (h : s.Loose F G p) (hF : ∀ q ∈ F', q ∈ F)
    (hfresh : s'.fresh = s.fresh) : s'.Loose F' G p :=
  ⟨fun hp => h.fifo (hF p hp), h.free, hfresh ▸ h.allocated⟩

theorem Loose.deleteseginfo (h : s.Loose F G p) (hne : p ≠ q) :
    (s.deleteseginfo q).Loose F (q :: G) p :=
  ⟨h.fifo, not_mem_cons_of_ne_of_not_mem hne h.free, h.allocated⟩

theorem Rep.coalesce_both (h : s.Rep (A ++ p :: n :: q :: B) L G)
    (hapart : Apart ((A ++ p :: q :: B).map s.block))
    (htotal : s.total = ↑(size ((A ++ p :: q :: B).map s.block)) + ↑(s.endseq n - s.startseq n))
    (hp : s.endseq p = s.startseq n) (hq : s.endseq n = s.startseq q) :
    ∃ s' flags F', s.coalesce (some p) n (some q) = some (s', flags) ∧
      s'.Adds (Ranges.cover ((A ++ p :: q :: B).map s.block)) (s.startseq n) (s.endseq n)
        s.rcvNxt F' := by
  have h : s.Rep ((A ++ [p]) ++ n :: (q :: B)) L G := by simpa using h
  obtain ⟨hn₁, hn₂⟩ := h.unlink
  obtain ⟨hq₁, hq₂⟩ := hn₁.unlink
  have hne : q ≠ n := by
    rintro rfl
    exact hn₂.fifo (by simp)
  have hn₃ : Loose (((s.fremove n).sremove n).fremove q |>.sremove q) ((A ++ [p]) ++ B) G n :=
    hn₂.mono (fun x hx => by simp at hx ⊢; tauto) rfl
  have hfin := (hq₁.deleteseginfo hn₃).deleteseginfo (hq₂.deleteseginfo hne)
  rw [append_assoc, singleton_append] at hfin
  simp only [coalesce, Option.filter_some, hp, hq, decide_true, if_true]
  refine ⟨_, _, A ++ p :: B, rfl, ?_⟩
  rw [map_append, map_cons, map_cons] at hapart htotal ⊢
  have hpp := hapart.nonempty (s.block p) (by simp)
  have hqq := hapart.nonempty (s.block q) (by simp)
  have hle : (s.block p).2 ≤ (s.block q).1 := by
    obtain ⟨-, hright, -⟩ := apart_append.1 hapart
    obtain ⟨-, -, hlt⟩ := apart_cons.1 hright
    exact (hlt (s.block q) mem_cons_self).le
  refine hfin.adds (by rfl) (by rfl) (by rfl) (by rfl) (by rfl) ?_ ?_ hapart.bridge ?_ ?_ ?_
  · intro x hx
    exact Prod.ext rfl (update_of_ne hx ..)
  · exact Prod.ext rfl (update_self ..)
  · change s.total = _
    rw [htotal, ← Int.cast_add]
    simp only [size_append, size_cons, block]
    congr 1
    omega
  · rw [cover_bridge hpp.le hle hqq.le]
    simp only [block, hp]
  · simp only [block] at hpp hle hqq ⊢
    omega

theorem Rep.coalesce_left (h : s.Rep (A ++ p :: n :: B) L G) (hn : s.startseq n < s.endseq n)
    (hapart : Apart ((A ++ p :: B).map s.block)) (hB : ∀ q ∈ B, s.endseq n < s.startseq q)
    (htotal : s.total = ↑(size ((A ++ p :: B).map s.block)) + ↑(s.endseq n - s.startseq n))
    (hp : s.endseq p = s.startseq n) :
    ∃ s' flags F', s.coalesce (some p) n B.head? = some (s', flags) ∧
      s'.Adds (Ranges.cover ((A ++ p :: B).map s.block)) (s.startseq n) (s.endseq n)
        s.rcvNxt F' := by
  have h : s.Rep ((A ++ [p]) ++ n :: B) L G := by simpa using h
  obtain ⟨hn₁, hn₂⟩ := h.unlink
  have hfin := hn₁.deleteseginfo hn₂
  rw [append_assoc, singleton_append] at hfin
  have hnone : (B.head?.filter fun q => decide (s.endseq n = s.startseq q)) = none := by
    rw [Option.filter_eq_none_iff]
    intro q hq
    have := hB q (mem_of_head? hq)
    simp
    omega
  simp only [coalesce, Option.filter_some, hp, decide_true, if_true, hnone]
  refine ⟨_, _, A ++ p :: B, rfl, ?_⟩
  rw [map_append, map_cons] at hapart htotal ⊢
  have hpp := hapart.nonempty (s.block p) (by simp)
  have hle : (s.block p).2 ≤ s.endseq n := by
    simp only [block]
    omega
  refine hfin.adds (by rfl) (by rfl) (by rfl) (by rfl) (by rfl) ?_ ?_
    (hapart.extend le_rfl hle ?_ ?_) ?_ ?_ ?_
  · intro x hx
    exact Prod.ext rfl (update_of_ne hx ..)
  · exact Prod.ext rfl (update_self ..)
  · intro a ha
    exact (apart_append.1 hapart).2.2 a ha (s.block p) mem_cons_self
  · intro c hc
    obtain ⟨q, hq, rfl⟩ := mem_map.1 hc
    exact hB q hq
  · change s.total = _
    rw [htotal, ← Int.cast_add]
    simp only [size_append, size_cons, block]
    congr 1
    omega
  · rw [cover_extend_right hpp.le hle]
    simp only [block, hp]
  · simp only [block] at hpp ⊢
    omega

theorem Rep.coalesce_right (h : s.Rep (A ++ n :: q :: B) L G) (hn : s.startseq n < s.endseq n)
    (hapart : Apart ((A ++ q :: B).map s.block)) (hA : ∀ p ∈ A, s.endseq p < s.startseq n)
    (htotal : s.total = ↑(size ((A ++ q :: B).map s.block)) + ↑(s.endseq n - s.startseq n))
    (hq : s.endseq n = s.startseq q) :
    ∃ s' flags F', s.coalesce A.getLast? n (some q) = some (s', flags) ∧
      s'.Adds (Ranges.cover ((A ++ q :: B).map s.block)) (s.startseq n) (s.endseq n)
        s.rcvNxt F' := by
  obtain ⟨hn₁, hn₂⟩ := h.unlink
  have hfin := hn₁.deleteseginfo hn₂
  have hnone : (A.getLast?.filter fun p => decide (s.endseq p = s.startseq n)) = none := by
    rw [Option.filter_eq_none_iff]
    intro p hp
    have := hA p (mem_of_getLast? hp)
    simp
    omega
  simp only [coalesce, Option.filter_some, hq, decide_true, if_true, hnone]
  refine ⟨_, _, A ++ q :: B, rfl, ?_⟩
  rw [map_append, map_cons] at hapart htotal ⊢
  have hqq := hapart.nonempty (s.block q) (by simp)
  have hle : s.startseq n ≤ (s.block q).1 := by
    simp only [block]
    omega
  refine hfin.adds (by rfl) (by rfl) (by rfl) (by rfl) (by rfl) ?_ ?_
    (hapart.extend hle le_rfl ?_ ?_) ?_ ?_ ?_
  · intro x hx
    exact Prod.ext (update_of_ne hx ..) rfl
  · exact Prod.ext (update_self ..) rfl
  · intro a ha
    obtain ⟨p, hp, rfl⟩ := mem_map.1 ha
    exact hA p hp
  · intro c hc
    exact (apart_cons.1 (apart_append.1 hapart).2.1).2.2 c hc
  · change s.total = _
    rw [htotal, ← Int.cast_add]
    simp only [size_append, size_cons, block]
    congr 1
    omega
  · rw [cover_extend_left hle hqq.le]
    simp only [block]
  · simp only [block] at hqq ⊢
    omega

/-- The new block has been linked in between two others and joins at least one of them. -/
theorem Rep.coalesce (h : s.Rep (A ++ n :: B) L G) (hn : s.startseq n < s.endseq n)
    (hapart : Apart ((A ++ B).map s.block))
    (hA : ∀ p ∈ A, s.endseq p ≤ s.startseq n) (hB : ∀ q ∈ B, s.endseq n ≤ s.startseq q)
    (htotal : s.total = ↑(size ((A ++ B).map s.block)) + ↑(s.endseq n - s.startseq n))
    (htouch : (∃ p ∈ A.getLast?, s.endseq p = s.startseq n) ∨
      ∃ q ∈ B.head?, s.startseq q = s.endseq n) :
    ∃ s' flags F', s.coalesce A.getLast? n B.head? = some (s', flags) ∧
      s'.Adds (Ranges.cover ((A ++ B).map s.block)) (s.startseq n) (s.endseq n)
        s.rcvNxt F' := by
  by_cases hleft : ∃ p ∈ A.getLast?, s.endseq p = s.startseq n
  · obtain ⟨p, hlast, hp⟩ := hleft
    obtain ⟨A, rfl⟩ := getLast?_eq_some_iff.1 hlast
    rw [append_assoc, singleton_append] at hapart htotal h ⊢
    rw [getLast?_concat]
    by_cases hright : ∃ q ∈ B.head?, s.startseq q = s.endseq n
    · obtain ⟨q, hhead, hq⟩ := hright
      obtain ⟨B, rfl⟩ := head?_eq_some_iff.1 hhead
      exact h.coalesce_both hapart htotal hp hq.symm
    · refine h.coalesce_left hn hapart ?_ htotal hp
      rw [map_append, map_cons] at hapart
      have hBapart := (apart_cons.1 (apart_append.1 hapart).2.1).2.1
      exact hBapart.lt_of_head hB fun q hhead hq => hright ⟨q, hhead, hq⟩
  · obtain ⟨q, hhead, hq⟩ := htouch.resolve_left hleft
    obtain ⟨B, rfl⟩ := head?_eq_some_iff.1 hhead
    refine h.coalesce_right hn hapart ?_ htotal hq.symm
    rw [map_append] at hapart
    exact (apart_append.1 hapart).1.lt_of_last hA fun p hlast hp => hleft ⟨p, hlast, hp⟩

theorem Rep.insertNew (h : s.Rep (A ++ B) L G) (sseq eseq : ℤ) (tiflags rqflags : ℕ)
    (initcnt : ℤ) :
    ∃ (n : ℕ) (s₁ : ReassemblyQueue) (L₁ G₁ : List ℕ),
      s.insertNew sseq eseq tiflags rqflags initcnt A.getLast? B.head? = (n, s₁) ∧
        s₁.Rep (A ++ n :: B) L₁ G₁ ∧ s₁.block n = (sseq, eseq) ∧
        (∀ x, x ≠ n → s₁.block x = s.block x) ∧ s₁.total = s.total + ↑(eseq - sseq) ∧
        s₁.rcvNxt = s.rcvNxt := by
  obtain ⟨G', hrep, hloose⟩ := h.newseginfo
  obtain ⟨freelist, fresh, heq⟩ := s.newseginfo_eq
  have hlinked := hrep.link hloose
  refine ⟨_, _, _, _, rfl, hlinked.congr (by rfl) (by rfl) (by rfl) (by rfl), ?_, ?_, ?_, ?_⟩
  · exact Prod.ext (update_self ..) (update_self ..)
  · intro x hx
    refine Prod.ext ?_ ?_
    · change Function.update s.newseginfo.2.startseq _ _ x = _
      rw [update_of_ne hx, heq]
      rfl
    · change Function.update s.newseginfo.2.endseq _ _ x = _
      rw [update_of_ne hx, heq]
      rfl
  · change s.newseginfo.2.total + _ = _
    rw [heq]
  · change s.newseginfo.2.rcvNxt = _
    rw [heq]

theorem Holds.endfast (h : s.Holds (A ++ B)) (hlt : sseq < eseq)
    (hA : ∀ p ∈ A, s.endseq p ≤ sseq) (hB : ∀ q ∈ B, eseq ≤ s.startseq q) {needmerge : Bool}
    (hmerge : needmerge = true ↔
      (∃ p ∈ A.getLast?, s.endseq p = sseq) ∨ ∃ q ∈ B.head?, s.startseq q = eseq)
    (tiflags rqflags : ℕ) (initcnt : ℤ) :
    ∃ s' flags F',
      s.endfast sseq eseq tiflags rqflags initcnt A.getLast? B.head? needmerge = some (s', flags) ∧
        s'.Adds (Ranges.cover ((A ++ B).map s.block)) sseq eseq s.rcvNxt F' := by
  obtain ⟨L, G, hrep⟩ := h.rep
  obtain ⟨n, s₁, L₁, G₁, heq, hrep₁, hn, hother, htotal, hrcv⟩ :=
    hrep.insertNew sseq eseq tiflags rqflags initcnt
  obtain ⟨rfl, rfl⟩ : s₁.startseq n = sseq ∧ s₁.endseq n = eseq := Prod.mk.inj hn
  have hnodup := hrep₁.fifo.nodup
  rw [nodup_middle, nodup_cons] at hnodup
  have hne : ∀ x ∈ A ++ B, x ≠ n := fun x hx => ne_of_mem_of_not_mem hx hnodup.1
  have hmap : (A ++ B).map s₁.block = (A ++ B).map s.block :=
    map_congr_left fun x hx => hother x (hne x hx)
  have hapart : Apart ((A ++ B).map s₁.block) := hmap ▸ h.apart
  have htotal₁ : s₁.total = ↑(size ((A ++ B).map s₁.block)) + ↑(s₁.endseq n - s₁.startseq n) := by
    rw [hmap, htotal, h.total]
  have hend : ∀ p ∈ A, s₁.endseq p = s.endseq p := fun p hp =>
    congrArg Prod.snd (hother p (hne p (mem_append_left B hp)))
  have hstart : ∀ q ∈ B, s₁.startseq q = s.startseq q := fun q hq =>
    congrArg Prod.fst (hother q (hne q (mem_append_right A hq)))
  have hA₁ : ∀ p ∈ A, s₁.endseq p ≤ s₁.startseq n := fun p hp => hend p hp ▸ hA p hp
  have hB₁ : ∀ q ∈ B, s₁.endseq n ≤ s₁.startseq q := fun q hq => hstart q hq ▸ hB q hq
  have hmerge₁ : needmerge = true ↔ (∃ p ∈ A.getLast?, s₁.endseq p = s₁.startseq n) ∨
      ∃ q ∈ B.head?, s₁.startseq q = s₁.endseq n := by
    rw [hmerge]
    refine or_congr (exists_congr fun p => and_congr_right fun hp => ?_)
      (exists_congr fun q => and_congr_right fun hq => ?_)
    · rw [hend p (mem_of_getLast? hp)]
    · rw [hstart q (mem_of_head? hq)]
  simp only [ReassemblyQueue.endfast, heq]
  rw [← hmap, ← hrcv]
  cases needmerge with
  | true =>
    rw [if_pos rfl]
    exact hrep₁.coalesce hlt hapart hA₁ hB₁ htotal₁ (hmerge₁.1 rfl)
  | false =>
    rw [if_neg (by simp)]
    refine ⟨_, _, A ++ n :: B, rfl, ?_⟩
    have hnot := mt hmerge₁.2 (by simp)
    rw [not_or] at hnot
    rw [map_append] at hapart htotal₁ ⊢
    obtain ⟨hapart₁, hapart₂, -⟩ := apart_append.1 hapart
    have hltA := hapart₁.lt_of_last hA₁ fun p hlast hp => hnot.1 ⟨p, hlast, hp⟩
    have hltB := hapart₂.lt_of_head hB₁ fun q hhead hq => hnot.2 ⟨q, hhead, hq⟩
    have hnew : Apart (A.map s₁.block ++ s₁.block n :: B.map s₁.block) := by
      apply hapart.insert hlt
      · rw [forall_mem_map]
        exact hltA
      · rw [forall_mem_map]
        exact hltB
    refine hrep₁.adds rfl rfl rfl rfl rfl (fun _ _ => rfl) rfl hnew ?_ ?_ ⟨le_rfl, hlt⟩
    · rw [htotal₁, ← Int.cast_add]
      simp only [size_append, size_cons, block]
      congr 1
      omega
    · ext x
      simp only [cover_append, cover_cons, Finset.mem_union, block]
      tauto

end Ns2.ReassemblyQueue
