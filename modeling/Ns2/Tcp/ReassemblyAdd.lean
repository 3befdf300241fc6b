import Ns2.Tcp.ReassemblyCover

/-! What `add` makes of the blocks: the loop that kills, the merges, and the two passes. -/

namespace Ns2.ReassemblyQueue

open Ranges List Function

variable {s s' : ReassemblyQueue} {F L G A B M : List ℕ} {m n p q : ℕ} {k : Adding} {C : Finset ℤ}
  {rcvNxt sseq eseq : ℤ}

/-- The result of an `add` of the range to the blocks `F`. -/
abbrev Adding.Gives (k : Adding) (F : List ℕ) (sseq eseq : ℤ) (r : Option (ReassemblyQueue × ℕ)) :
    Prop :=
  ∃ s' flags F', r = some (s', flags) ∧
    s'.Adds (Ranges.cover (F.map k.queue.block)) sseq eseq k.queue.rcvNxt F'

/-- The block lies within a range. -/
def inside (sseq eseq : ℤ) (s : ReassemblyQueue) (p : ℕ) : Bool :=
  decide (sseq ≤ s.startseq p ∧ s.endseq p ≤ eseq)

theorem Rep.kill {fuel : ℕ} (h : k.queue.Rep (A ++ (M ++ B)) L G) (hfuel : M.length < fuel)
    (hexact : ∀ m ∈ M, ¬(sseq = k.queue.startseq m ∧ eseq = k.queue.endseq m)) :
    ∃ (k' : Adding) (L' G' : List ℕ),
      kill sseq eseq B.head? fuel (M ++ B).head? k = some (.inr k') ∧
        k'.queue.Rep (A ++ (M.filter (fun m => !k.queue.inside sseq eseq m) ++ B)) L' G' ∧
        k'.queue.block = k.queue.block ∧ k'.queue.rcvNxt = k.queue.rcvNxt ∧
        k'.queue.total = k.queue.total -
          ↑(size ((M.filter (k.queue.inside sseq eseq)).map k.queue.block)) ∧
        k'.altered = (k.altered || M.any (k.queue.inside sseq eseq)) := by
  induction M generalizing A L G k fuel with
  | nil =>
    obtain ⟨n, rfl⟩ := Nat.exists_eq_add_of_lt hfuel
    refine ⟨k, L, G, ?_, by simpa using h, rfl, rfl, by simp, by simp⟩
    cases B with
    | nil => rfl
    | cons b B => simp [ReassemblyQueue.kill]
  | cons m M ih =>
    obtain ⟨n, rfl⟩ := Nat.exists_eq_add_of_lt hfuel
    have hfuel' : M.length < M.length + n + 1 := by omega
    rw [forall_mem_cons] at hexact
    have hm : some m ≠ B.head? := by
      intro heq
      have hnodup := (nodup_append.1 h.fifo.nodup).2.1
      rw [cons_append, nodup_cons] at hnodup
      exact hnodup.1 (mem_append_right M (mem_of_head? heq.symm))
    have hnext : k.queue.fifo.next (some m) = (M ++ B).head? := h.fifo.next
    rw [length_cons, show M.length + 1 + n + 1 = (M.length + n + 1) + 1 by omega,
      cons_append, head?_cons, ReassemblyQueue.kill, if_neg hm, if_neg hexact.1, hnext]
    by_cases hin : sseq ≤ k.queue.startseq m ∧ eseq ≥ k.queue.endseq m
    · obtain ⟨hrep, hloose⟩ := (h.congr rfl rfl rfl rfl : Rep { k.queue with
          total := k.queue.total - ↑(k.queue.endseq m - k.queue.startseq m) } _ L G).unlink
      have hin' : k.queue.inside sseq eseq m = true := decide_eq_true hin
      rw [if_pos hin]
      obtain ⟨k', L', G', hkill, hrep', hblock, hrcv, htotal, haltered⟩ :=
        ih (k := ⟨_, _, _, true⟩) (hrep.deleteseginfo hloose) hfuel' hexact.2
      refine ⟨k', L', G', hkill, ?_, hblock, hrcv, ?_, ?_⟩
      · rw [filter_cons_of_neg (by simp [hin'])]
        exact hrep'
      · rw [filter_cons_of_pos hin', map_cons, size_cons, htotal]
        change k.queue.total - ↑((k.queue.block m).2 - (k.queue.block m).1) - _ = _
        rw [Int.cast_add, sub_sub]
        rfl
      · rw [haltered, any_cons, hin']
        simp
    · have hin' : k.queue.inside sseq eseq m = false := decide_eq_false hin
      have h' : k.queue.Rep ((A ++ [m]) ++ (M ++ B)) L G := by simpa using h
      rw [if_neg hin]
      obtain ⟨k', L', G', hkill, hrep', hblock, hrcv, htotal, haltered⟩ := ih h' hfuel' hexact.2
      refine ⟨k', L', G', hkill, ?_, hblock, hrcv, ?_, ?_⟩
      · rw [filter_cons_of_pos (by simp [hin'])]
        simpa using hrep'
      · rw [filter_cons_of_neg (by simp [hin']), htotal]
      · rw [haltered, any_cons, hin', Bool.false_or]

theorem leftMerge_skip (hnext : k.queue.fifo.next (some p) = some m)
    (hm : sseq ≤ k.queue.startseq m) : leftMerge (some p) sseq k = some (some p, sseq, false, k) := by
  simp [ReassemblyQueue.leftMerge, hnext, hm]

theorem rightMerge_skip (hprev : k.queue.fifo.prev (some q) = some m)
    (hm : k.queue.endseq m ≤ eseq) :
    rightMerge (some q) eseq k = some (some q, eseq, false, k) := by
  simp [ReassemblyQueue.rightMerge, hprev, hm]

/-- The block that `start` lies in, or that begins behind it when it is the first, is the left
neighbour. -/
theorem Holds.leftMerge (h : k.queue.Holds (A ++ m :: B))
    (hm : A = [] ∨ k.queue.startseq m < sseq) :
    ∃ k', leftMerge A.getLast? sseq k = some (some m, k.queue.endseq m, true, k') ∧
      k'.queue.Holds (A ++ m :: B) ∧ k'.queue.rcvNxt = k.queue.rcvNxt ∧
      k'.queue.endseq = k.queue.endseq ∧
      k'.queue.startseq =
        Function.update k.queue.startseq m (min sseq (k.queue.startseq m)) ∧
      Ranges.cover ((A ++ m :: B).map k'.queue.block) =
        Ranges.cover ((A ++ m :: B).map k.queue.block) ∪
          Finset.Ico sseq (k.queue.startseq m) := by
  obtain ⟨L, G, hrep⟩ := h.rep
  have hnext : k.queue.fifo.next A.getLast? = some m := (hrep.fifo.cut A (m :: B) rfl).1
  have hnodup := hrep.fifo.nodup
  have hcond : A.getLast? = none ∨ k.queue.startseq m < sseq :=
    hm.imp_left fun hA => by rw [hA, getLast?_nil]
  have hapart := h.apart
  rw [map_append, map_cons] at hapart
  have hlt := hapart.nonempty (k.queue.block m) (by simp)
  simp only [ReassemblyQueue.leftMerge, hnext, Option.map_some, if_pos hcond]
  by_cases hext : sseq < k.queue.startseq m
  · obtain rfl := hm.resolve_right (not_lt.2 hext.le)
    simp only [if_pos hext]
    have hmap : ∀ t : ReassemblyQueue, t.endseq = k.queue.endseq →
        t.startseq = Function.update k.queue.startseq m sseq →
        ([] ++ m :: B).map t.block =
          [] ++ (sseq, (k.queue.block m).2) :: B.map k.queue.block := by
      intro t hend hstart
      rw [map_block_update (s := k.queue) hnodup]
      · simp only [block, hend, hstart, update_self, map_nil]
      · intro x hx
        simp only [block, hend, hstart, update_of_ne hx]
    have hle : sseq ≤ (k.queue.block m).1 := hext.le
    refine ⟨_, rfl, ⟨⟨L, G, hrep.congr rfl rfl rfl rfl⟩, ?_, ?_⟩, rfl, rfl, ?_, ?_⟩
    · rw [hmap _ (by rfl) (by rfl)]
      exact hapart.extend hle le_rfl (by simp)
        (apart_cons.1 (apart_append.1 hapart).2.1).2.2
    · rw [hmap _ (by rfl) (by rfl)]
      simp only [h.total, nil_append, map_cons, size_cons, block]
      rw [← Int.cast_add]
      congr 1
      omega
    · simp only [min_eq_left hext.le]
    · rw [hmap _ (by rfl) (by rfl), cover_extend_left hle hlt.le]
      rfl
  · simp only [if_neg hext]
    refine ⟨_, rfl, ⟨⟨L, G, hrep.congr rfl rfl rfl rfl⟩, h.apart, h.total⟩, rfl, rfl, ?_, ?_⟩
    · simp only [min_eq_right (not_lt.1 hext), update_eq_self]
    · rw [Finset.Ico_eq_empty hext, Finset.union_empty]
      rfl

/-- The block that `end` lies in, or that ends before it when it is the last, is the right
neighbour. -/
theorem Holds.rightMerge (h : k.queue.Holds (A ++ m :: B))
    (hm : B = [] ∨ eseq < k.queue.endseq m) :
    ∃ k', rightMerge B.head? eseq k = some (some m, k.queue.startseq m, true, k') ∧
      k'.queue.Holds (A ++ m :: B) ∧ k'.queue.rcvNxt = k.queue.rcvNxt ∧
      k'.queue.startseq = k.queue.startseq ∧
      k'.queue.endseq = Function.update k.queue.endseq m (max eseq (k.queue.endseq m)) ∧
      Ranges.cover ((A ++ m :: B).map k'.queue.block) =
        Ranges.cover ((A ++ m :: B).map k.queue.block) ∪
          Finset.Ico (k.queue.endseq m) eseq := by
  obtain ⟨L, G, hrep⟩ := h.rep
  have hprev : k.queue.fifo.prev B.head? = some m := by
    have hcut := (hrep.fifo.cut (A ++ [m]) B (by simp)).2
    rwa [getLast?_concat] at hcut
  have hnodup := hrep.fifo.nodup
  have hcond : B.head? = none ∨ k.queue.endseq m > eseq :=
    hm.imp_left fun hB => by rw [hB, head?_nil]
  have hapart := h.apart
  rw [map_append, map_cons] at hapart
  have hlt := hapart.nonempty (k.queue.block m) (by simp)
  simp only [ReassemblyQueue.rightMerge, hprev, Option.map_some, if_pos hcond]
  by_cases hext : eseq > k.queue.endseq m
  · obtain rfl := hm.resolve_right (not_lt.2 hext.le)
    simp only [if_pos hext]
    have hmap : ∀ t : ReassemblyQueue, t.startseq = k.queue.startseq →
        t.endseq = Function.update k.queue.endseq m eseq →
        (A ++ [m]).map t.block =
          A.map k.queue.block ++ ((k.queue.block m).1, eseq) :: [] := by
      intro t hstart hend
      rw [map_block_update (s := k.queue) hnodup]
      · simp only [block, hend, hstart, update_self, map_nil]
      · intro x hx
        simp only [block, hend, hstart, update_of_ne hx]
    have hle : (k.queue.block m).2 ≤ eseq := hext.le
    refine ⟨_, rfl, ⟨⟨L, G, hrep.congr rfl rfl rfl rfl⟩, ?_, ?_⟩, rfl, rfl, ?_, ?_⟩
    · rw [hmap _ (by rfl) (by rfl)]
      refine hapart.extend le_rfl hle (fun a ha => ?_) (by simp)
      exact (apart_append.1 hapart).2.2 a ha (k.queue.block m) mem_cons_self
    · rw [hmap _ (by rfl) (by rfl)]
      simp only [h.total, map_append, map_cons, map_nil, size_append, size_cons,
        size_nil, block]
      rw [← Int.cast_add]
      congr 1
      omega
    · simp only [max_eq_left hext.le]
    · rw [hmap _ (by rfl) (by rfl), cover_extend_right hlt.le hle, map_append]
      rfl
  · simp only [if_neg hext]
    refine ⟨_, rfl, ⟨⟨L, G, hrep.congr rfl rfl rfl rfl⟩, h.apart, h.total⟩, rfl, rfl, ?_, ?_⟩
    · simp only [max_eq_right (not_lt.1 hext), update_eq_self]
    · rw [Finset.Ico_eq_empty (not_lt.2 (not_lt.1 hext)), Finset.union_empty]
      rfl

theorem Holds.advance_first (h : s.Holds (A ++ m :: B))
    (hC : Ranges.cover ((A ++ m :: B).map s.block) = C) :
    ∃ head, s.fifo.next none = some head ∧ (s.advance head).Covers C s.rcvNxt (A ++ m :: B) := by
  obtain ⟨L, G, hrep⟩ := h.rep
  obtain ⟨head, l, heq⟩ := exists_cons_of_ne_nil (show A ++ m :: B ≠ [] by simp)
  refine ⟨head, ?_, h.advance (by simp [heq]) hC⟩
  rw [hrep.fifo.first, heq, head?_cons]

theorem union_congr {T T' D : Finset ℤ} (hD : D ⊆ C)
    (h : ∀ x, x ∉ D → (x ∈ T ↔ x ∈ T')) : C ∪ T = C ∪ T' := by
  ext x
  rw [Finset.mem_union, Finset.mem_union]
  by_cases hx : x ∈ D
  · simp [hD hx]
  · rw [h x hx]

theorem block_subset_cover (s : ReassemblyQueue) (hm : m ∈ F) :
    Finset.Ico (s.startseq m) (s.endseq m) ⊆ Ranges.cover (F.map s.block) := by
  intro x hx
  rw [Finset.mem_Ico] at hx
  exact mem_cover.2 ⟨s.block m, mem_map_of_mem hm, hx⟩

theorem Holds.merge_none (h : k.queue.Holds (A ++ B)) (hlt : sseq < eseq) (hneA : A ≠ [])
    (hneB : B ≠ []) (hA : ∀ p ∈ A, k.queue.endseq p ≤ sseq)
    (hB : ∀ q ∈ B, eseq ≤ k.queue.startseq q) (rqflags : ℕ) :
    k.Gives (A ++ B) sseq eseq (merge sseq eseq rqflags A.getLast? B.head? k) := by
  obtain ⟨L, G, hrep⟩ := h.rep
  obtain ⟨A', a, hAeq⟩ := (eq_nil_or_concat' A).resolve_left hneA
  obtain ⟨b, B', hBeq⟩ := exists_cons_of_ne_nil hneB
  have hlast : A.getLast? = some a := by rw [hAeq, getLast?_concat]
  have hhead : B.head? = some b := by rw [hBeq, head?_cons]
  obtain ⟨hnext, hprev⟩ := hrep.fifo.cut A B rfl
  rw [hlast, hhead] at hnext hprev
  have ha := hA a (by simp [hAeq])
  have hb := hB b (by simp [hBeq])
  have htouch : (decide (k.queue.startseq b ≥ eseq) &&
      (decide (k.queue.endseq a = sseq) || decide (k.queue.startseq b = eseq))) = true ↔
      (∃ p ∈ A.getLast?, k.queue.endseq p = sseq) ∨ ∃ q ∈ B.head?, k.queue.startseq q = eseq := by
    simp [hlast, hhead, hb]
  have hend := h.endfast hlt hA hB htouch k.tiflags rqflags k.initcnt
  rw [hlast, hhead] at hend ⊢
  simp only [merge, leftMerge_skip hnext (hlt.le.trans hb), rightMerge_skip hprev (ha.trans hlt.le),
    Option.bind_some, if_neg (not_le.2 hlt), Bool.or_self, Bool.false_eq_true, if_false, touches,
    hnext, ha, and_self, if_true, Option.map_some]
  exact hend

theorem Holds.leftMerge_within (h : k.queue.Holds (A ++ m :: B))
    (hm : k.queue.startseq m < sseq) :
    ∃ k', ReassemblyQueue.leftMerge A.getLast? sseq k = some (some m, k.queue.endseq m, true, k') ∧
      k'.queue.Holds (A ++ m :: B) ∧ k'.queue.rcvNxt = k.queue.rcvNxt ∧
      k'.queue.startseq = k.queue.startseq ∧ k'.queue.endseq = k.queue.endseq := by
  obtain ⟨k', hk', h', hrcv, hend, hstart, -⟩ := h.leftMerge (Or.inr hm)
  rw [min_eq_right hm.le, update_eq_self] at hstart
  exact ⟨k', hk', h', hrcv, hstart, hend⟩

theorem Holds.rightMerge_within (h : k.queue.Holds (A ++ m :: B))
    (hm : eseq < k.queue.endseq m) :
    ∃ k', ReassemblyQueue.rightMerge B.head? eseq k = some (some m, k.queue.startseq m, true, k') ∧
      k'.queue.Holds (A ++ m :: B) ∧ k'.queue.rcvNxt = k.queue.rcvNxt ∧
      k'.queue.startseq = k.queue.startseq ∧ k'.queue.endseq = k.queue.endseq := by
  obtain ⟨k', hk', h', hrcv, hstart, hend, -⟩ := h.rightMerge (Or.inr hm)
  rw [max_eq_right hm.le, update_eq_self] at hend
  exact ⟨k', hk', h', hrcv, hstart, hend⟩

theorem startseq_endseq_of_block (h : s'.block = s.block) :
    s'.startseq = s.startseq ∧ s'.endseq = s.endseq :=
  ⟨funext fun p => congrArg Prod.fst (congrFun h p),
    funext fun p => congrArg Prod.snd (congrFun h p)⟩

theorem block_congr (hstart : s'.startseq = s.startseq) (hend : s'.endseq = s.endseq) :
    s'.block = s.block := by
  funext p
  rw [block, hstart, hend, block]

theorem Holds.merge_both (h : k.queue.Holds (A ++ m :: B)) (hm : sseq < k.queue.endseq m)
    (hm' : k.queue.startseq m < eseq) (hleft : A = [] ∨ k.queue.startseq m < sseq)
    (hright : B = [] ∨ eseq < k.queue.endseq m) (rqflags : ℕ) :
    k.Gives (A ++ m :: B) sseq eseq (merge sseq eseq rqflags A.getLast? B.head? k) := by
  have hblock := k.queue.block_subset_cover (m := m) (F := A ++ m :: B) (by simp)
  have hmm : k.queue.startseq m < k.queue.endseq m :=
    h.apart.nonempty (k.queue.block m) (mem_map_of_mem (by simp))
  obtain ⟨k₁, hk₁, h₁, hrcv₁, hend₁, hstart₁, hcover₁⟩ := h.leftMerge hleft
  rw [← hend₁] at hright
  obtain ⟨k₂, hk₂, h₂, hrcv₂, hstart₂, hend₂, hcover₂⟩ := h₁.rightMerge hright
  have hle : k₁.queue.startseq m ≤ k.queue.endseq m := by
    rw [hstart₁, update_self]
    omega
  have hset : Ranges.cover ((A ++ m :: B).map k₂.queue.block) =
      Ranges.cover ((A ++ m :: B).map k.queue.block) ∪ Finset.Ico sseq eseq := by
    rw [hcover₂, hcover₁, hend₁, Finset.union_assoc]
    refine union_congr hblock fun x hx => ?_
    simp only [Finset.mem_union, Finset.mem_Ico] at hx ⊢
    omega
  obtain ⟨head, hhead, hcovers⟩ := h₂.advance_first hset
  simp only [merge, hk₁, hk₂, Option.bind_some, if_pos hle, hhead, Option.map_some]
  refine ⟨_, _, A ++ m :: B, rfl, ?_⟩
  by_cases hmem : sseq ∈ Ranges.cover ((A ++ m :: B).map k.queue.block)
  · rw [hrcv₂, hrcv₁] at hcovers
    exact hcovers.adds hmem
  · -- the first block of the list is the one that has been extended
    have hge : ¬k.queue.startseq m < sseq := fun hlt =>
      hmem (hblock (Finset.mem_Ico.2 ⟨hlt.le, hm⟩))
    obtain rfl := hleft.resolve_right hge
    obtain ⟨L, G, hrep⟩ := h₂.rep
    rw [hrep.fifo.first, nil_append, head?_cons] at hhead
    obtain rfl := Option.some.inj hhead
    have hadds := h₂.advance_adds (p := m) (by simp) hset
    rw [hrcv₂, hrcv₁] at hadds
    apply hadds
    simp only [block, hstart₂, hstart₁, hend₂, hend₁, update_self]
    omega

theorem Holds.merge_rest (sseq eseq : ℤ) (h : s.Holds (A ++ B)) (hne : A ++ B ≠ [])
    (hA : ∀ p ∈ A, s.endseq p ≤ sseq) (hB : ∀ q ∈ B, eseq ≤ s.startseq q)
    (htouch : (∃ p ∈ A.getLast?, s.endseq p = sseq) ∨ ∃ q ∈ B.head?, s.startseq q = eseq)
    (tiflags rqflags : ℕ) (initcnt : ℤ) :
    ∃ s' flags F',
      (if eseq ≤ sseq then (s.fifo.next none).map fun head => (s.advance head, tiflags)
        else s.endfast sseq eseq tiflags rqflags initcnt A.getLast? B.head? true) =
          some (s', flags) ∧
        s'.Covers (Ranges.cover ((A ++ B).map s.block) ∪ Finset.Ico sseq eseq) s.rcvNxt F' ∧
        (sseq < eseq → s'.Adds (Ranges.cover ((A ++ B).map s.block)) sseq eseq s.rcvNxt F') := by
  by_cases hdone : eseq ≤ sseq
  · obtain ⟨m, l, heq⟩ := exists_cons_of_ne_nil hne
    rw [heq] at h ⊢
    have h' : s.Holds ([] ++ m :: l) := h
    obtain ⟨head, hhead, hcovers⟩ := h'.advance_first rfl
    rw [if_pos hdone, hhead, Finset.Ico_eq_empty (not_lt.2 hdone), Finset.union_empty]
    exact ⟨_, _, _, rfl, hcovers, fun hlt => absurd hlt (not_lt.2 hdone)⟩
  · rw [if_neg hdone]
    obtain ⟨s', flags, F', hend, hadds⟩ :=
      h.endfast (not_le.1 hdone) hA hB (by simpa using htouch : true = true ↔ _) tiflags rqflags initcnt
    exact ⟨s', flags, F', hend, hadds.toCovers, fun _ => hadds⟩

theorem le_last {f : ℕ → ℤ} (hA : ∀ p ∈ A, f p ≤ sseq) (hm : sseq ≤ f m) :
    ∀ p ∈ A ++ [m], f p ≤ f m := by
  intro p hp
  rcases mem_append.1 hp with hp | hp
  · exact (hA p hp).trans hm
  · exact (mem_singleton.1 hp ▸ le_rfl)

theorem first_le {f : ℕ → ℤ} (hB : ∀ q ∈ B, eseq ≤ f q) (hm : f m ≤ eseq) :
    ∀ q ∈ m :: B, f m ≤ f q :=
  forall_mem_cons.2 ⟨le_rfl, fun q hq => hm.trans (hB q hq)⟩

/-- The new block begins in `m` and ends behind it, at the latest where the next one begins. -/
theorem Holds.merge_left (h : k.queue.Holds (A ++ m :: B)) (hneB : B ≠ [])
    (hA : ∀ p ∈ A, k.queue.endseq p ≤ sseq) (hB : ∀ q ∈ B, eseq ≤ k.queue.startseq q)
    (hm : k.queue.startseq m < sseq) (hm' : sseq < k.queue.endseq m)
    (hend : k.queue.endseq m ≤ eseq) (rqflags : ℕ) :
    k.Gives (A ++ m :: B) sseq eseq (merge sseq eseq rqflags A.getLast? B.head? k) := by
  obtain ⟨k₁, hk₁, h₁, hrcv₁, hstart₁, hend₁⟩ := h.leftMerge_within hm
  obtain ⟨b, B', hBeq⟩ := exists_cons_of_ne_nil hneB
  obtain ⟨L₁, G₁, hrep₁⟩ := h₁.rep
  have hhead : B.head? = some b := by rw [hBeq, head?_cons]
  have hcut := (hrep₁.fifo.cut (A ++ [m]) B (by simp)).2
  rw [getLast?_concat, hhead] at hcut
  have hskip : k₁.queue.endseq m ≤ eseq := hend₁ ▸ hend
  rw [append_cons] at h h₁ ⊢
  have hlast : (A ++ [m]).getLast? = some m := getLast?_concat
  have hrest := h₁.merge_rest (k.queue.endseq m) eseq (by simp) ?_ ?_ ?_
    k₁.tiflags rqflags k₁.initcnt
  · obtain ⟨s', flags, F', hrest, hcovers, -⟩ := hrest
    have hset : Ranges.cover (((A ++ [m]) ++ B).map k.queue.block) ∪ Finset.Ico sseq eseq =
        Ranges.cover (((A ++ [m]) ++ B).map k.queue.block) ∪
          Finset.Ico (k.queue.endseq m) eseq := by
      refine union_congr (k.queue.block_subset_cover (m := m) (by simp)) fun x hx => ?_
      simp only [Finset.mem_Ico] at hx ⊢
      omega
    rw [block_congr hstart₁ hend₁, hrcv₁, ← hset] at hcovers
    rw [hlast, hhead] at hrest
    simp only [merge, hk₁, Option.bind_some, hhead, rightMerge_skip hcut hskip, Bool.true_or, if_true]
    refine ⟨s', flags, F', hrest, hcovers.adds ?_⟩
    exact k.queue.block_subset_cover (m := m) (by simp) (Finset.mem_Ico.2 ⟨hm.le, hm'⟩)
  · rw [hend₁]
    exact le_last hA hm'.le
  · rwa [hstart₁]
  · exact Or.inl ⟨m, hlast, by rw [hend₁]⟩

theorem Holds.merge_right (h : k.queue.Holds (A ++ m :: B)) (hneA : A ≠ [])
    (hA : ∀ p ∈ A, k.queue.endseq p ≤ sseq) (hB : ∀ q ∈ B, eseq ≤ k.queue.startseq q)
    (hm : sseq ≤ k.queue.startseq m) (hm' : k.queue.startseq m < eseq)
    (hend : eseq < k.queue.endseq m) (rqflags : ℕ) :
    k.Gives (A ++ m :: B) sseq eseq (merge sseq eseq rqflags A.getLast? B.head? k) := by
  obtain ⟨k₁, hk₁, h₁, hrcv₁, hstart₁, hend₁⟩ := h.rightMerge_within hend
  obtain ⟨A', a, hAeq⟩ := (eq_nil_or_concat' A).resolve_left hneA
  obtain ⟨L, G, hrep⟩ := h.rep
  have hlast : A.getLast? = some a := by rw [hAeq, getLast?_concat]
  have hcut := (hrep.fifo.cut A (m :: B) rfl).1
  rw [hlast, head?_cons] at hcut
  have hrest := h₁.merge_rest sseq (k.queue.startseq m) (by simp) ?_ ?_ ?_
    k₁.tiflags rqflags k₁.initcnt
  · obtain ⟨s', flags, F', hrest, hcovers, hadds⟩ := hrest
    have hset : Ranges.cover ((A ++ m :: B).map k.queue.block) ∪ Finset.Ico sseq eseq =
        Ranges.cover ((A ++ m :: B).map k.queue.block) ∪
          Finset.Ico sseq (k.queue.startseq m) := by
      refine union_congr (k.queue.block_subset_cover (m := m) (by simp)) fun x hx => ?_
      simp only [Finset.mem_Ico] at hx ⊢
      omega
    rw [block_congr hstart₁ hend₁, hrcv₁] at hcovers hadds
    rw [← hset] at hcovers
    rw [hlast, head?_cons] at hrest
    simp only [merge, hlast, leftMerge_skip hcut hm, Option.bind_some, hk₁, Bool.or_true, if_true]
    refine ⟨s', flags, F', hrest, ?_⟩
    rcases hm.eq_or_lt with heq | hlt
    · apply hcovers.adds
      refine k.queue.block_subset_cover (m := m) (by simp) (Finset.mem_Ico.2 ⟨heq.ge, ?_⟩)
      exact heq.trans_lt (hm'.trans hend)
    · exact ⟨hcovers, (hadds hlt).reached⟩
  · rwa [hend₁]
  · rw [hstart₁]
    exact first_le hB hm'.le
  · exact Or.inr ⟨m, rfl, by rw [hstart₁]⟩

theorem Holds.merge_two (h : k.queue.Holds (A ++ m :: n :: B))
    (hA : ∀ p ∈ A, k.queue.endseq p ≤ sseq) (hB : ∀ q ∈ B, eseq ≤ k.queue.startseq q)
    (hm : k.queue.startseq m < sseq) (hm' : sseq < k.queue.endseq m)
    (hn : k.queue.startseq n < eseq) (hn' : eseq < k.queue.endseq n) (rqflags : ℕ) :
    k.Gives (A ++ m :: n :: B) sseq eseq (merge sseq eseq rqflags A.getLast? B.head? k) := by
  obtain ⟨k₁, hk₁, h₁, hrcv₁, hstart₁, hend₁⟩ := h.leftMerge_within hm
  rw [append_cons] at h h₁ ⊢
  rw [← hend₁] at hn'
  obtain ⟨k₂, hk₂, h₂, hrcv₂, hstart₂, hend₂⟩ := h₁.rightMerge_within hn'
  rw [hend₁] at hend₂ hn'
  rw [hstart₁] at hstart₂ hk₂
  have hlast : (A ++ [m]).getLast? = some m := getLast?_concat
  have hmem : m ∈ (A ++ [m]) ++ n :: B ∧ n ∈ (A ++ [m]) ++ n :: B := by simp
  have hrest := h₂.merge_rest (k.queue.endseq m) (k.queue.startseq n) (by simp)
    ?_ ?_ ?_ k₂.tiflags rqflags k₂.initcnt
  · obtain ⟨s', flags, F', hrest, hcovers, -⟩ := hrest
    have hset : Ranges.cover (((A ++ [m]) ++ n :: B).map k.queue.block) ∪ Finset.Ico sseq eseq =
        Ranges.cover (((A ++ [m]) ++ n :: B).map k.queue.block) ∪
          Finset.Ico (k.queue.endseq m) (k.queue.startseq n) := by
      refine union_congr (Finset.union_subset (k.queue.block_subset_cover hmem.1)
        (k.queue.block_subset_cover hmem.2)) fun x hx => ?_
      simp only [Finset.mem_union, Finset.mem_Ico] at hx ⊢
      omega
    rw [block_congr hstart₂ hend₂, hrcv₂, hrcv₁, ← hset] at hcovers
    rw [hlast, head?_cons] at hrest
    simp only [merge, hk₁, Option.bind_some, hk₂, Bool.or_true, if_true]
    refine ⟨s', flags, F', hrest, hcovers.adds ?_⟩
    exact k.queue.block_subset_cover hmem.1 (Finset.mem_Ico.2 ⟨hm.le, hm'⟩)
  · rw [hend₂]
    exact le_last hA hm'.le
  · rw [hstart₂]
    exact first_le hB hn.le
  · exact Or.inl ⟨m, hlast, by rw [hend₂]⟩

theorem Holds.merge (h : k.queue.Holds (A ++ (M ++ B))) (hlt : sseq < eseq)
    (hneA : A ++ M ≠ []) (hneB : M ++ B ≠ [])
    (hA : ∀ p ∈ A, k.queue.endseq p ≤ sseq) (hB : ∀ q ∈ B, eseq ≤ k.queue.startseq q)
    (hM : ∀ m ∈ M, sseq < k.queue.endseq m ∧ k.queue.startseq m < eseq)
    (hin : ∀ m ∈ M, k.queue.inside sseq eseq m = false) (rqflags : ℕ) :
    k.Gives (A ++ (M ++ B)) sseq eseq
      (ReassemblyQueue.merge sseq eseq rqflags A.getLast? B.head? k) := by
  have hnot : ∀ m ∈ M, ¬(sseq ≤ k.queue.startseq m ∧ k.queue.endseq m ≤ eseq) := fun m hm =>
    of_decide_eq_false (hin m hm)
  have hapart : Apart (M.map k.queue.block) := by
    have happ := h.apart
    rw [map_append, map_append] at happ
    exact (apart_append.1 (apart_append.1 happ).2.1).1
  match M with
  | [] => exact h.merge_none hlt (by simpa using hneA) (by simpa using hneB) hA hB rqflags
  | [m] =>
    obtain ⟨hm, hm'⟩ := hM m mem_cons_self
    have hnotm := hnot m mem_cons_self
    by_cases hleft : A = [] ∨ k.queue.startseq m < sseq
    · by_cases hright : B = [] ∨ eseq < k.queue.endseq m
      · exact h.merge_both hm hm' hleft hright rqflags
      · rw [not_or, not_lt] at hright
        exact h.merge_left hright.1 hA hB (by omega) hm hright.2 rqflags
    · rw [not_or, not_lt] at hleft
      exact h.merge_right hleft.1 hA hB hleft.2 hm' (by omega) rqflags
  | [m, n] =>
    obtain ⟨hm, hm'⟩ := hM m (by simp)
    obtain ⟨hn, hn'⟩ := hM n (by simp)
    have hnotm := hnot m (by simp)
    have hnotn := hnot n (by simp)
    have hmn : k.queue.endseq m < k.queue.startseq n :=
      (apart_cons.1 hapart).2.2 (k.queue.block n) (by simp)
    exact h.merge_two hA hB (by omega) hm hn' (by omega) rqflags
  | m :: n :: o :: M =>
    obtain ⟨hm, -⟩ := hM m (by simp)
    obtain ⟨-, ho⟩ := hM o (by simp)
    have hnotn := hnot n (by simp)
    have hmn : k.queue.endseq m < k.queue.startseq n :=
      (apart_cons.1 hapart).2.2 (k.queue.block n) (by simp)
    have hno : k.queue.endseq n < k.queue.startseq o :=
      (apart_cons.1 (apart_cons.1 hapart).2.1).2.2 (k.queue.block o) (by simp)
    exact absurd ⟨by omega, by omega⟩ hnotn

theorem Rep.kill_start {head : ℕ} (sseq eseq : ℤ) (fuel : ℕ) (h : k.queue.Rep (A ++ (M ++ B)) L G)
    (hhead : (A ++ (M ++ B)).head? = some head) (hfuel : (A ++ M).length ≤ fuel)
    (hA : ∀ p ∈ A, k.queue.startseq p < sseq ∧ k.queue.endseq p < eseq) :
    ∃ fuel', M.length < fuel' ∧
      ReassemblyQueue.kill sseq eseq B.head? (fuel + 1)
          (if A.getLast? = none then some head else A.getLast?) k =
        ReassemblyQueue.kill sseq eseq B.head? fuel' (M ++ B).head? k := by
  rcases eq_nil_or_concat' A with rfl | ⟨A', a, rfl⟩
  · refine ⟨fuel + 1, Nat.lt_succ_of_le hfuel, ?_⟩
    rw [getLast?_nil, if_pos rfl, ← hhead, nil_append]
  · refine ⟨fuel, by simp at hfuel; omega, ?_⟩
    obtain ⟨ha, ha'⟩ := hA a (by simp)
    have hrep : k.queue.Rep (A' ++ a :: (M ++ B)) L G := by simpa using h
    have hne : some a ≠ B.head? := by
      intro heq
      have hnodup := (nodup_append.1 h.fifo.nodup).2.2 a (by simp) a
      exact hnodup (mem_append_right M (mem_of_head? heq.symm)) rfl
    rw [getLast?_concat, if_neg (by simp), ReassemblyQueue.kill, if_neg hne,
      if_neg (by omega), if_neg (by omega), hrep.fifo.next]

theorem cover_filter (s : ReassemblyQueue) (sseq eseq : ℤ) (A M B : List ℕ) :
    Ranges.cover ((A ++ (M.filter (fun m => !s.inside sseq eseq m) ++ B)).map s.block) ∪
        Finset.Ico sseq eseq =
      Ranges.cover ((A ++ (M ++ B)).map s.block) ∪ Finset.Ico sseq eseq := by
  have hM : ∀ x, x ∉ Finset.Ico sseq eseq →
      (x ∈ Ranges.cover ((M.filter fun m => !s.inside sseq eseq m).map s.block) ↔
        x ∈ Ranges.cover (M.map s.block)) := by
    intro x hx
    simp only [mem_cover_map, mem_filter]
    constructor
    · rintro ⟨m, ⟨hm, -⟩, hmx⟩
      exact ⟨m, hm, hmx⟩
    · rintro ⟨m, hm, hmx, hmx'⟩
      refine ⟨m, ⟨hm, ?_⟩, hmx, hmx'⟩
      rw [Bool.not_eq_true']
      refine decide_eq_false fun hin => hx (Finset.mem_Ico.2 ?_)
      simp only [block] at hmx hmx'
      omega
  ext x
  simp only [map_append, cover_append, Finset.mem_union]
  by_cases hx : x ∈ Finset.Ico sseq eseq
  · simp [hx]
  · rw [hM x hx]

theorem Holds.again2_tail (h : k.queue.Holds A) (hne : A ≠ []) (hlt : sseq < eseq)
    (hA : ∀ p ∈ A, k.queue.endseq p ≤ sseq) (rqflags : ℕ) :
    ∀ fuel, k.Gives A sseq eseq (again2 sseq eseq rqflags (fuel + 1) k) := by
  obtain ⟨L, G, hrep⟩ := h.rep
  obtain ⟨A', a, hAeq⟩ := (eq_nil_or_concat' A).resolve_left hne
  have hlast : A.getLast? = some a := by rw [hAeq, getLast?_concat]
  obtain ⟨head, A'', hAeq'⟩ := exists_cons_of_ne_nil hne
  have hhead : A.head? = some head := by rw [hAeq', head?_cons]
  have ha := hA a (by simp [hAeq])
  rw [← append_nil A] at h hlast
  have htouch : decide (sseq = k.queue.endseq a) = true ↔
      (∃ p ∈ A.getLast?, k.queue.endseq p = sseq) ∨
        ∃ q ∈ ([] : List ℕ).head?, k.queue.startseq q = eseq := by
    rw [append_nil] at hlast
    simp [hlast, eq_comm]
  obtain ⟨s', flags, F', hend, hcovers⟩ :=
    h.endfast hlt hA (by simp) htouch k.tiflags rqflags k.initcnt
  rw [append_nil] at hlast hcovers
  refine fun fuel => ⟨s', flags, F', ?_, hcovers⟩
  simp only [again2, hrep.fifo.last, hrep.fifo.first, hlast, hhead, Option.bind_some, if_pos ha]
  rw [← hend, hlast, head?_nil]

theorem Holds.again2_head (h : k.queue.Holds B) (hne : B ≠ []) (hlt : sseq < eseq)
    (hB : ∀ q ∈ B, sseq < k.queue.endseq q ∧ eseq ≤ k.queue.startseq q) (rqflags : ℕ) :
    ∀ fuel, k.Gives B sseq eseq (again2 sseq eseq rqflags (fuel + 1) k) := by
  obtain ⟨L, G, hrep⟩ := h.rep
  obtain ⟨B', last, hBeq⟩ := (eq_nil_or_concat' B).resolve_left hne
  have hlast : B.getLast? = some last := by rw [hBeq, getLast?_concat]
  obtain ⟨b, B'', hBeq'⟩ := exists_cons_of_ne_nil hne
  have hhead : B.head? = some b := by rw [hBeq', head?_cons]
  have hb := hB b (by simp [hBeq'])
  have htail := hB last (by simp [hBeq])
  have hnil : k.queue.Holds ([] ++ B) := h
  have htouch : decide (eseq = k.queue.startseq b) = true ↔
      (∃ p ∈ ([] : List ℕ).getLast?, k.queue.endseq p = sseq) ∨
        ∃ q ∈ B.head?, k.queue.startseq q = eseq := by
    simp [hhead, eq_comm]
  obtain ⟨s', flags, F', hend, hcovers⟩ :=
    hnil.endfast hlt (by simp) (fun q hq => (hB q hq).2) htouch k.tiflags rqflags k.initcnt
  refine fun fuel => ⟨s', flags, F', ?_, hcovers⟩
  simp only [again2, hrep.fifo.last, hrep.fifo.first, hlast, hhead, Option.bind_some,
    if_neg (not_le.2 htail.1), if_pos hb.2]
  rw [← hend, hhead, getLast?_nil]

theorem Holds.kill_exact {fuel : ℕ} (h : k.queue.Holds (A ++ (M ++ B))) (hfuel : M.length < fuel)
    (hM : ∀ m ∈ M, sseq < k.queue.endseq m) (hm : m ∈ M)
    (hexact : sseq = k.queue.startseq m ∧ eseq = k.queue.endseq m) :
    ∃ s' flags,
      ReassemblyQueue.kill sseq eseq B.head? fuel (M ++ B).head? k = some (.inl (s', flags)) ∧
        s'.Adds (Ranges.cover ((A ++ (M ++ B)).map k.queue.block)) sseq eseq
          k.queue.rcvNxt (A ++ (M ++ B)) := by
  obtain ⟨L, G, hrep⟩ := h.rep
  have hapart := h.apart
  rw [map_append, map_append] at hapart
  have hsorted := (apart_append.1 (apart_append.1 hapart).2.1).1
  obtain ⟨M', hMeq⟩ : ∃ M', M = m :: M' := by
    cases M with
    | nil => cases hm
    | cons x M' =>
      rcases mem_cons.1 hm with rfl | hm
      · exact ⟨M', rfl⟩
      · have hlt := (apart_cons.1 hsorted).2.2 _ (mem_map_of_mem hm)
        have hx := hM x mem_cons_self
        simp only [block] at hlt
        omega
  obtain ⟨n, rfl⟩ := Nat.exists_eq_add_of_lt hfuel
  have hne : some m ≠ B.head? := by
    intro heq
    have hnodup := (nodup_append.1 hrep.fifo.nodup).2.1
    exact (nodup_append.1 hnodup).2.2 m hm m (mem_of_head? heq.symm) rfl
  have hsub : Finset.Ico sseq eseq ⊆ Ranges.cover ((A ++ (M ++ B)).map k.queue.block) := by
    rw [hexact.1, hexact.2]
    exact k.queue.block_subset_cover (by simp [hMeq])
  have hsseq : sseq ∈ Finset.Ico sseq eseq := by
    rw [Finset.left_mem_Ico, hexact.1, hexact.2]
    exact h.apart.nonempty (k.queue.block m) (mem_map_of_mem (by simp [hMeq]))
  have hhead : (M ++ B).head? = some m := by rw [hMeq, cons_append, head?_cons]
  rw [hhead, ReassemblyQueue.kill, if_neg hne, if_pos hexact]
  refine ⟨_, _, rfl, Covers.adds ?_ (hsub hsseq)⟩
  rw [Finset.union_eq_left.2 hsub]
  exact ⟨⟨⟨L, G, hrep.congr rfl rfl rfl rfl⟩, h.apart, h.total⟩, rfl, Or.inl rfl⟩

/-- What `again2` makes of the result of the loop that kills. -/
def killed (sseq eseq : ℤ) (rqflags : ℕ) (p q : Option ℕ) (fuel : ℕ) :
    (ReassemblyQueue × ℕ) ⊕ Adding → Option (ReassemblyQueue × ℕ)
  | .inl r => some r
  | .inr k =>
    if k.queue.empty then k.queue.endfast sseq eseq k.tiflags rqflags k.initcnt p q false
    else if k.altered then again2 sseq eseq rqflags fuel { k with altered := false }
    else merge sseq eseq rqflags p q k

theorem Holds.again2_kill (h : k.queue.Holds (A ++ (M ++ B))) (hneA : A ++ M ≠ [])
    (hneB : M ++ B ≠ []) (hlt : sseq < eseq) (hA : ∀ p ∈ A, k.queue.endseq p ≤ sseq)
    (hM : ∀ m ∈ M, sseq < k.queue.endseq m ∧ k.queue.startseq m < eseq)
    (hB : ∀ q ∈ B, sseq < k.queue.endseq q ∧ eseq ≤ k.queue.startseq q) (rqflags : ℕ) :
    ∃ fuel', M.length < fuel' ∧ ∀ fuel, again2 sseq eseq rqflags (fuel + 1) k =
      (ReassemblyQueue.kill sseq eseq B.head? fuel' (M ++ B).head? k).bind
        (killed sseq eseq rqflags A.getLast? B.head? fuel) := by
  obtain ⟨L, G, hrep⟩ := h.rep
  have hlen := hrep.length_lt
  obtain ⟨F', last, hlasteq⟩ := (eq_nil_or_concat' (M ++ B)).resolve_left hneB
  obtain ⟨head, F'', hheadeq⟩ := exists_cons_of_ne_nil hneA
  have hlast : (A ++ (M ++ B)).getLast? = some last := by
    rw [hlasteq, ← append_assoc, getLast?_concat]
  have hhead : (A ++ (M ++ B)).head? = some head := by
    rw [← append_assoc, hheadeq, cons_append, head?_cons]
  have hmm : ∀ p ∈ A ++ (M ++ B), k.queue.startseq p < k.queue.endseq p := fun p hp =>
    h.apart.nonempty (k.queue.block p) (mem_map_of_mem hp)
  have htail : sseq < k.queue.endseq last := by
    have hmem : last ∈ M ++ B := by simp [hlasteq]
    rcases mem_append.1 hmem with hmem | hmem
    · exact (hM last hmem).1
    · exact (hB last hmem).1
  have hAM : ∀ p ∈ A ++ M, k.queue.startseq p < eseq := by
    intro p hp
    rcases mem_append.1 hp with hp | hp
    · have := hA p hp
      have := hmm p (mem_append_left _ hp)
      omega
    · exact (hM p hp).2
  have hfirst : k.queue.startseq head < eseq := hAM head (by simp [hheadeq])
  have hkilled : ∀ p ∈ A, k.queue.startseq p < sseq ∧ k.queue.endseq p < eseq := by
    intro p hp
    have := hA p hp
    have := hmm p (mem_append_left _ hp)
    omega
  have hroom : (A ++ M).length ≤ k.queue.fresh := by
    simp only [length_append] at hlen ⊢
    omega
  obtain ⟨fuel', hfuel', hkill⟩ := hrep.kill_start sseq eseq k.queue.fresh hhead hroom hkilled
  refine ⟨fuel', hfuel', fun fuel => ?_⟩
  have hq : Links.seek k.queue.fifo.next (fun q => decide (k.queue.startseq q < eseq))
      (k.queue.fresh + 1) (k.queue.fifo.next none) = some B.head? := by
    have hrep' : k.queue.Rep ((A ++ M) ++ B) L G := by rwa [append_assoc]
    apply hrep'.fifo.seek_first (by rwa [append_assoc])
    · exact fun p hp => decide_eq_true (hAM p hp)
    · exact fun q hq => decide_eq_false (not_lt.2 (hB q hq).2)
  have hp : Links.seek k.queue.fifo.prev (fun p => decide (k.queue.endseq p > sseq))
      (k.queue.fresh + 1) (k.queue.fifo.prev none) = some A.getLast? := by
    apply hrep.fifo.seek_last hlen
    · exact fun p hp => decide_eq_false (not_lt.2 (hA p hp))
    · intro p hp
      rcases mem_append.1 hp with hp | hp
      · exact decide_eq_true (hM p hp).1
      · exact decide_eq_true (hB p hp).1
  rw [hrep.fifo.first, hhead] at hq
  rw [hrep.fifo.last, hlast] at hp
  simp only [again2, hrep.fifo.last, hrep.fifo.first, hlast, hhead, Option.bind_some,
    if_neg (not_le.2 htail), if_neg (not_le.2 hfirst), hq, hp, hkill]
  rfl

theorem Holds.kill {fuel : ℕ} (h : k.queue.Holds (A ++ (M ++ B))) (hfuel : M.length < fuel)
    (hexact : ∀ m ∈ M, ¬(sseq = k.queue.startseq m ∧ eseq = k.queue.endseq m)) :
    ∃ k', ReassemblyQueue.kill sseq eseq B.head? fuel (M ++ B).head? k = some (.inr k') ∧
      k'.queue.Holds (A ++ (M.filter (fun m => !k.queue.inside sseq eseq m) ++ B)) ∧
      k'.queue.block = k.queue.block ∧ k'.queue.rcvNxt = k.queue.rcvNxt ∧
      k'.altered = (k.altered || M.any (k.queue.inside sseq eseq)) := by
  obtain ⟨L, G, hrep⟩ := h.rep
  obtain ⟨k', L', G', hkill, hrep', hblock, hrcv, htotal, haltered⟩ := hrep.kill hfuel hexact
  refine ⟨k', hkill, ⟨⟨L', G', hrep'⟩, ?_, ?_⟩, hblock, hrcv, haltered⟩
  · rw [hblock]
    apply h.apart.sublist
    exact ((filter_sublist.append_right B).append_left A).map k.queue.block
  · have hsize := size_map_filter (f := k.queue.block) (l := M) (k.queue.inside sseq eseq)
    rw [htotal, h.total, hblock, ← Int.cast_sub]
    simp only [map_append, size_append]
    congr 1
    omega

/-- A pass has killed what lies within the range, and the next one begins with `k'`. -/
structure Adding.Again (k : Adding) (F : List ℕ) (sseq eseq : ℤ) (rqflags : ℕ) (k' : Adding)
    (F' : List ℕ) : Prop where
  again2 : ∀ fuel, again2 sseq eseq rqflags (fuel + 1) k = again2 sseq eseq rqflags fuel k'
  holds : k'.queue.Holds F'
  ne : F' ≠ []
  altered : k'.altered = false
  rcvNxt : k'.queue.rcvNxt = k.queue.rcvNxt
  subset : Ranges.cover (F'.map k'.queue.block) ⊆ Ranges.cover (F.map k.queue.block)
  cover : Ranges.cover (F'.map k'.queue.block) ∪ Finset.Ico sseq eseq =
    Ranges.cover (F.map k.queue.block) ∪ Finset.Ico sseq eseq
  outside : ∀ p ∈ F', k'.queue.inside sseq eseq p = false
  killed : ∃ p ∈ F, k.queue.inside sseq eseq p = true

theorem Holds.pass_killed {fuel' : ℕ} {rqflags : ℕ} (h : k.queue.Holds (A ++ (M ++ B)))
    (hneA : A ++ M ≠ []) (hneB : M ++ B ≠ []) (haltered : k.altered = false) (hlt : sseq < eseq)
    (hA : ∀ p ∈ A, k.queue.endseq p ≤ sseq)
    (hM : ∀ m ∈ M, sseq < k.queue.endseq m ∧ k.queue.startseq m < eseq)
    (hB : ∀ q ∈ B, sseq < k.queue.endseq q ∧ eseq ≤ k.queue.startseq q)
    (hexact : ∀ m ∈ M, ¬(sseq = k.queue.startseq m ∧ eseq = k.queue.endseq m))
    (hfuel : M.length < fuel')
    (hagain : ∀ fuel, again2 sseq eseq rqflags (fuel + 1) k =
      (ReassemblyQueue.kill sseq eseq B.head? fuel' (M ++ B).head? k).bind
        (killed sseq eseq rqflags A.getLast? B.head? fuel)) :
    (∀ fuel, k.Gives (A ++ (M ++ B)) sseq eseq (again2 sseq eseq rqflags (fuel + 1) k)) ∨
      ∃ k' F', k.Again (A ++ (M ++ B)) sseq eseq rqflags k' F' := by
  have hcover := k.queue.cover_filter sseq eseq A M B
  obtain ⟨k', hkill, h', hblock, hrcv, haltered'⟩ := h.kill hfuel hexact
  simp only [hkill, Option.bind_some, killed] at hagain
  obtain ⟨L, G, hrep'⟩ := h'.rep
  rw [← hblock] at hcover
  obtain ⟨hstart, hend⟩ := startseq_endseq_of_block hblock
  have hinside : ∀ p, k'.queue.inside sseq eseq p = k.queue.inside sseq eseq p := by
    intro p
    rw [inside, hstart, hend, inside]
  by_cases hempty : A ++ (M.filter (fun m => !k.queue.inside sseq eseq m) ++ B) = []
  · left
    have hnil := hempty
    rw [append_eq_nil_iff, append_eq_nil_iff] at hnil
    obtain ⟨rfl, -, rfl⟩ := hnil
    rw [hempty] at h' hcover hrep'
    have h₀ : k'.queue.Holds ([] ++ []) := h'
    obtain ⟨s', flags, F', hend, hadds⟩ :=
      h₀.endfast hlt (by simp) (by simp) (by simp : false = true ↔ _) k'.tiflags rqflags k'.initcnt
    refine fun fuel => ⟨s', flags, F', ?_, ?_⟩
    · rw [hagain, if_pos (hrep'.empty_iff.2 rfl)]
      exact hend
    · rw [← hblock, ← hrcv]
      exact hadds.superset (Finset.empty_subset _) hcover
  · have hnot : ¬k'.queue.empty = true := fun hem => hempty (hrep'.empty_iff.1 hem)
    simp only [if_neg hnot] at hagain
    rw [haltered, Bool.false_or] at haltered'
    cases hany : M.any (k.queue.inside sseq eseq) with
    | true =>
      right
      rw [haltered', hany] at hagain
      obtain ⟨m, hm, hin⟩ := any_eq_true.1 hany
      refine ⟨{ k' with altered := false }, _, hagain, h', hempty, rfl, hrcv, ?_, ?_, ?_, m, ?_, hin⟩
      · rw [← hblock]
        apply cover_mono
        apply map_subset
        exact ((filter_sublist.append_right B).append_left A).subset
      · rw [← hblock]
        exact hcover
      · intro p hp
        change k'.queue.inside sseq eseq p = false
        have hp' : (k'.queue.block p).1 < (k'.queue.block p).2 :=
          h'.apart.nonempty _ (mem_map_of_mem hp)
        rw [hblock] at hp'
        rw [hinside]
        simp only [mem_append, mem_filter] at hp
        rcases hp with hp | ⟨-, hp⟩ | hp
        · have := hA p hp
          exact decide_eq_false (by simp only [block] at hp'; omega)
        · simpa using hp
        · have := hB p hp
          exact decide_eq_false (by simp only [block] at hp'; omega)
      · simp [hm]
    | false =>
      left
      rw [haltered', hany] at hagain
      rw [any_eq_false] at hany
      have hfilter : M.filter (fun m => !k.queue.inside sseq eseq m) = M :=
        filter_eq_self.2 fun m hm => by simpa using hany m hm
      rw [hfilter] at h'
      obtain ⟨s', flags, F', hmerge, hcovers⟩ := h'.merge hlt hneA hneB (by rwa [hend])
        (fun q hq => by rw [hstart]; exact (hB q hq).2) (by rwa [hstart, hend])
        (fun m hm => by rw [hinside]; simpa using hany m hm) rqflags
      refine fun fuel => ⟨s', flags, F', ?_, ?_⟩
      · rw [hagain]
        exact hmerge
      · rwa [hblock, hrcv] at hcovers

theorem Holds.pass (h : k.queue.Holds F) (hne : F ≠ []) (haltered : k.altered = false)
    (hlt : sseq < eseq) (rqflags : ℕ) :
    (∀ fuel, k.Gives F sseq eseq (again2 sseq eseq rqflags (fuel + 1) k)) ∨
      ∃ k' F', k.Again F sseq eseq rqflags k' F' := by
  obtain ⟨A, M, B, rfl, hA, hM, hB⟩ := h.apart.split sseq eseq
  by_cases hMB : M ++ B = []
  · left
    rw [hMB, append_nil] at h hne ⊢
    exact h.again2_tail hne hlt hA rqflags
  · by_cases hAM : A ++ M = []
    · left
      rw [← append_assoc, hAM, nil_append] at h hne ⊢
      exact h.again2_head hne hlt hB rqflags
    · obtain ⟨fuel', hfuel', hagain⟩ := h.again2_kill hAM hMB hlt hA hM hB rqflags
      by_cases hexact : ∃ m ∈ M, sseq = k.queue.startseq m ∧ eseq = k.queue.endseq m
      · obtain ⟨m, hm, hexact⟩ := hexact
        obtain ⟨s', flags, hkill, hcovers⟩ :=
          h.kill_exact hfuel' (fun m hm => (hM m hm).1) hm hexact
        refine Or.inl fun fuel => ⟨s', flags, _, ?_, hcovers⟩
        rw [hagain, hkill, Option.bind_some, killed]
      · exact h.pass_killed hAM hMB haltered hlt hA hM hB
          (fun m hm heq => hexact ⟨m, hm, heq⟩) hfuel' hagain

theorem Holds.nil (h : s.Holds F) (hfirst : s.fifo.next none = none) : F = [] := by
  obtain ⟨L, G, hrep⟩ := h.rep
  rw [hrep.fifo.first] at hfirst
  exact head?_eq_none_iff.1 hfirst

theorem Holds.add (h : s.Holds F) (hlt : sseq < eseq) (tiflags rqflags : ℕ) :
    ∃ s' flags F', s.add sseq eseq tiflags rqflags = some (s', flags) ∧
      s'.Adds (Ranges.cover (F.map s.block)) sseq eseq s.rcvNxt F' := by
  rw [ReassemblyQueue.add, if_neg (not_lt.2 hlt.le)]
  by_cases hfirst : s.fifo.next none = none
  · obtain rfl := h.nil hfirst
    obtain ⟨L, G, hrep⟩ := h.rep
    obtain rfl := perm_nil.1 hrep.perm
    have htop : s.lifo.next none = none := hrep.lifo.first
    have h' : s.Holds ([] ++ []) := h
    have hadd := h'.endfast hlt (by simp) (by simp) (by simp : false = true ↔ _) tiflags rqflags 1
    obtain ⟨freelist, fresh, heq⟩ := s.newseginfo_eq
    have htotal : s.total = 0 := h.total
    rw [if_pos hfirst, if_neg (not_not.2 htop)]
    cases hnew : s.newseginfo with
    | mk n t =>
      obtain rfl : t = { s with freelist := freelist, fresh := fresh } := by rw [← heq, hnew]
      simpa [ReassemblyQueue.endfast, ReassemblyQueue.insertNew, hnew, push, htop, htotal] using hadd
  · rw [if_neg hfirst]
    have hne : F ≠ [] := by
      rintro rfl
      obtain ⟨L, G, hrep⟩ := h.rep
      exact hfirst hrep.fifo.first
    have h₁ : (⟨s, tiflags, 1, false⟩ : Adding).queue.Holds F := h
    rcases h₁.pass hne rfl hlt rqflags with hgives | ⟨k', F', h'⟩
    · exact hgives 1
    · rcases h'.holds.pass h'.ne h'.altered hlt rqflags with hgives | ⟨k'', F'', hagain⟩
      · obtain ⟨s', flags, F₂, hadd, hadds⟩ := hgives 0
        rw [h'.rcvNxt] at hadds
        exact ⟨s', flags, F₂, (h'.again2 1).trans hadd, hadds.superset h'.subset h'.cover⟩
      · obtain ⟨p, hp, hin⟩ := hagain.killed
        rw [h'.outside p hp] at hin
        cases hin

end Ns2.ReassemblyQueue
