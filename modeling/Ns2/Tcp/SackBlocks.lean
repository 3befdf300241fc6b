import Ns2.Lib.Ranges
import Ns2.Tcp.Sacker

/-! The blocks of every acknowledgement: the stack holds different maximal runs above
`next_`, as long as no duplicate is reported whose run is the last one but one that the
stack has room for. -/

namespace Ns2

open List Option

/-- A block with the types of the header. -/
def blockOf (b : ℕ × ℕ) : ℤ × ℤ := (b.1, b.2)

/-- What the loop over the stack does to the list of entries. -/
def scanStack {β : Type*} (covered : β → Bool) : ℕ → List β → List β × List β
  | 0, l => ([], l)
  | _ + 1, [] => ([], [])
  | room + 1, b :: l =>
    if covered b then scanStack covered (room + 1) l
    else (b :: (scanStack covered room l).1, b :: (scanStack covered room l).2)

/-- What is not covered is kept and written as far as there is room; the rest is kept. -/
theorem scanStack_cases {β : Type*} (covered : β → Bool) (room : ℕ) (l : List β) :
    ∃ l₁ l₂, l = l₁ ++ l₂ ∧
      scanStack covered room l =
        (l₁.filter fun b => !covered b, (l₁.filter fun b => !covered b) ++ l₂) ∧
      (l₁.filter fun b => !covered b).length ≤ room ∧
      (l₂ = [] ∨ (l₁.filter fun b => !covered b).length = room) := by
  fun_induction scanStack covered room l with
  | case1 l => exact ⟨[], l, rfl, rfl, le_rfl, Or.inr rfl⟩
  | case2 room => exact ⟨[], [], rfl, rfl, Nat.zero_le _, Or.inl rfl⟩
  | case3 room b l hcov ih =>
    obtain ⟨l₁, l₂, hl, heq, hle, hrest⟩ := ih
    refine ⟨b :: l₁, l₂, by rw [hl]; rfl, ?_, ?_, ?_⟩
    · rw [filter_cons_of_neg (by simp [hcov])]
      exact heq
    · rw [filter_cons_of_neg (by simp [hcov])]
      exact hle
    · rw [filter_cons_of_neg (by simp [hcov])]
      exact hrest
  | case4 room b l hcov ih =>
    obtain ⟨l₁, l₂, hl, heq, hle, hrest⟩ := ih
    have hcons : (b :: l₁).filter (fun b => !covered b) = b :: l₁.filter fun b => !covered b :=
      filter_cons_of_pos (by simp [hcov])
    refine ⟨b :: l₁, l₂, by rw [hl]; rfl, ?_, ?_, ?_⟩
    · rw [hcons, heq]
      rfl
    · rw [hcons, length_cons]
      omega
    · rw [hcons, length_cons]
      exact hrest.imp_right fun h => by omega

namespace SackStack

/-- The entries of the stack are a list. -/
structure Rep (s : SackStack) (l : List (ℕ × ℕ)) : Prop where
  cnt : s.cnt = l.length
  sfe : ∀ i, s.sfe i = (l[i]?.map blockOf).getD (-1, -1)

variable {s : SackStack} {l : List (ℕ × ℕ)}

theorem rep_init (sz : ℕ) : (init sz).Rep [] := ⟨rfl, fun _ => rfl⟩

theorem Rep.reset (h : s.Rep l) : s.reset.Rep [] := by
  refine ⟨rfl, fun i => ?_⟩
  simp only [SackStack.reset, h.cnt, h.sfe]
  split_ifs with hi
  · rfl
  · rw [getElem?_eq_none (by omega)]
    rfl

theorem Rep.push (h : s.Rep l) (hfits : l.length ≤ s.size) (hsize : 0 < s.size) (b : ℕ × ℕ) :
    (s.push (blockOf b)).Rep (b :: l.take (s.size - 1)) := by
  have hcnt : (if s.cnt ≥ s.size then s.size - 1 else s.cnt) = (l.take (s.size - 1)).length := by
    rw [length_take, h.cnt]
    split_ifs <;> omega
  refine ⟨?_, fun i => ?_⟩
  · simp only [SackStack.push, hcnt, length_cons]
  · simp only [SackStack.push, hcnt, h.sfe]
    cases i with
    | zero => rfl
    | succ i =>
      rw [if_neg (Nat.succ_ne_zero i), getElem?_cons_succ, getElem?_take,
        Nat.succ_sub_one]
      split_ifs with h₁ h₂ h₂
      · rfl
      · rw [length_take] at h₁
        omega
      · rw [length_take] at h₁
        rw [getElem?_eq_none (by omega), getElem?_eq_none (by omega)]
      · rw [getElem?_eq_none (by omega)]

theorem Rep.pop (h : s.Rep l) {k : ℕ} (hk : k < l.length) : (s.pop k).Rep (l.eraseIdx k) := by
  refine ⟨?_, fun i => ?_⟩
  · rw [length_eraseIdx_of_lt hk, ← h.cnt]
    rfl
  · simp only [SackStack.pop, h.cnt, h.sfe, getElem?_eraseIdx]
    split_ifs with h₁ h₂ h₂ h₃ h₃
    · omega
    · rw [getElem?_eq_none (by omega)]
      rfl
    · omega
    · rfl
    · rfl
    · rw [getElem?_eq_none (by omega), getElem?_eq_none (by omega)]

end SackStack

namespace Sacker

theorem oldBlocks_eq (recent : ℤ × ℤ) {maxseen : ℕ} {sf : SackStack} {fuel room : ℕ}
    (pre : List (ℕ × ℕ)) {rest : List (ℕ × ℕ)} (h : sf.Rep (pre ++ rest)) (hfuel : rest.length + room < fuel)
    (hright : ∀ b ∈ rest, b.2 ≤ maxseen + 1) :
    ∃ sf', oldBlocks maxseen recent fuel room pre.length sf =
        some ((scanStack (fun b : ℕ × ℕ => recent.1 ≤ b.1 ∧ recent.2 ≥ b.2) room rest).1.map
          blockOf, sf') ∧
      sf'.size = sf.size ∧
      sf'.Rep (pre ++ (scanStack (fun b : ℕ × ℕ => recent.1 ≤ b.1 ∧ recent.2 ≥ b.2) room rest).2) := by
  induction fuel generalizing room pre rest sf with
  | zero => omega
  | succ fuel ih =>
    rw [oldBlocks]
    cases room with
    | zero =>
      rw [if_pos rfl, scanStack]
      exact ⟨sf, rfl, rfl, h⟩
    | succ room =>
      rw [if_neg (Nat.succ_ne_zero room)]
      have hread := h.sfe pre.length
      cases rest with
      | nil =>
        rw [append_nil, getElem?_eq_none le_rfl] at hread
        rw [if_pos (by rw [hread]; simp)]
        exact ⟨sf, rfl, rfl, h⟩
      | cons b rest =>
        have hb : sf.sfe pre.length = blockOf b := by
          rw [hread, getElem?_append_right le_rfl]
          simp
        have hin := hright b mem_cons_self
        rw [hb, if_neg (by simp only [blockOf]; omega)]
        by_cases hcov : recent.1 ≤ b.1 ∧ recent.2 ≥ b.2
        · have hpop : (sf.pop pre.length).Rep (pre ++ rest) := by
            have := h.pop (k := pre.length) (by simp)
            rwa [eraseIdx_append_of_length_le le_rfl, Nat.sub_self] at this
          rw [if_pos (by simpa [blockOf] using hcov), scanStack, if_pos (by simpa using hcov)]
          rw [length_cons] at hfuel
          exact ih pre hpop (by omega) fun c hc => hright c (mem_cons_of_mem _ hc)
        · have hmove : sf.Rep ((pre ++ [b]) ++ rest) := by simpa using h
          rw [length_cons] at hfuel
          obtain ⟨sf', heq, hsize, hrep⟩ := ih (pre ++ [b]) hmove (show rest.length + room < fuel by omega)
            fun c hc => hright c (mem_cons_of_mem _ hc)
          rw [length_append, length_singleton] at heq
          rw [if_neg (by simpa [blockOf] using hcov), scanStack, if_neg (by simpa using hcov),
            Nat.succ_sub_one, heq]
          exact ⟨sf', rfl, hsize, by simpa using hrep⟩

/-- The packets received. -/
def received (hist : List (ℕ × ℤ)) : Set ℕ := {i | i ∈ Acker.packets hist}

theorem received_cons (o : ℕ × ℤ) (hist : List (ℕ × ℤ)) :
    received (o :: hist) = insert o.1 (received hist) := by
  ext i
  simp [received, Acker.packets]

section

variable {a : Acker} {hist : List (ℕ × ℤ)} {seq : ℕ}

theorem seen_eq_zero (h : Acker.Tracks hist a) {i : ℕ} (hl : a.next ≤ i) (hr : i ≤ a.maxseen + 1) :
    a.seen (i &&& a.wndmask) = 0 ↔ i ∉ received hist := by
  rw [h.window.slots i ⟨hl, hr⟩]
  exact (not_iff_comm.1 (Acker.recorded_ne_zero h.sizes)).symm

theorem rightEdge_cases (a : Acker) (seq : ℕ) (hseq : seq ≤ a.maxseen + 1) :
    seq ≤ rightEdge a seq ∧ rightEdge a seq ≤ a.maxseen + 1 ∧
      (∀ i, seq ≤ i → i < rightEdge a seq → a.seen (i &&& a.wndmask) ≠ 0) ∧
      (rightEdge a seq ≤ a.maxseen →
        a.seen (rightEdge a seq &&& a.wndmask) = 0) := by
  rw [rightEdge]
  cases hfind : (range' seq (a.maxseen + 1 - seq)).find? fun i =>
      a.seen (i &&& a.wndmask) = 0 with
  | none =>
    rw [find?_range'_eq_none] at hfind
    refine ⟨hseq, le_rfl, fun i hl hr => ?_, fun hle => ?_⟩
    · simpa using hfind i hl (by simp only [getD_none] at hr; omega)
    · simp only [getD_none] at hle
      omega
  | some r =>
    rw [find?_range'_eq_some] at hfind
    obtain ⟨hzero, hmem, hbefore⟩ := hfind
    rw [mem_range'_1] at hmem
    refine ⟨hmem.1, by simp only [getD_some]; omega, fun i hl hr => ?_, fun _ => ?_⟩
    · simpa using hbefore i hl hr
    · simpa using hzero

theorem leftEdge_eq (h : Acker.Tracks hist a) {right : ℕ} (hl : a.next < right)
    (hr : right ≤ a.maxseen + 1) : ∃ l : ℕ, leftEdge a right = l ∧ a.next < l ∧ l ≤ right ∧
      (∀ i, l ≤ i → i < right → i ∈ received hist) ∧ ∀ i, i + 1 = l → i ∉ received hist := by
  induction right with
  | zero => omega
  | succ i ih =>
    rw [leftEdge, if_neg (by omega)]
    have hzero := seen_eq_zero h (i := i) (by omega) (by omega)
    by_cases hin : i ∈ received hist
    · have hne : a.next ≠ i := by
        rintro rfl
        exact h.next hin
      obtain ⟨l, heq, h₁, h₂, hrun, hleft⟩ := ih (by omega) (by omega)
      rw [if_neg fun h0 => hzero.1 h0 hin]
      refine ⟨l, heq, h₁, by omega, fun j hj hji => ?_, hleft⟩
      rcases Nat.lt_succ_iff_lt_or_eq.1 hji with hji | rfl
      · exact hrun j hj hji
      · exact hin
    · rw [if_pos (hzero.2 hin)]
      refine ⟨i + 1, by push_cast; rfl, by omega, le_rfl, fun j hj hji => by omega, fun j hj => ?_⟩
      obtain rfl : j = i := by omega
      exact hin

theorem recent_run (h : Acker.Tracks hist a) (hseq : seq ∈ received hist) (hnext : a.next ≤ seq) :
    ∃ c, (leftEdge a (rightEdge a seq), (rightEdge a seq : ℤ)) = blockOf c ∧
      MaximalRun (received hist) c ∧ a.next < c.1 ∧ seq ∈ Set.Ico c.1 c.2 := by
  have hmax := h.window.above seq hseq
  obtain ⟨hle, hr, hbefore, hstop⟩ := rightEdge_cases a seq (by omega)
  have hrun : ∀ i, seq ≤ i → i < rightEdge a seq → i ∈ received hist := fun i h₁ h₂ =>
    not_not.1 fun hnot => hbefore i h₁ h₂ ((seen_eq_zero h (by omega) (by omega)).2 hnot)
  have hright : rightEdge a seq ∉ received hist := by
    intro hin
    have hmax' := h.window.above _ hin
    exact (seen_eq_zero h (by omega) (by omega)).1 (hstop hmax') hin
  have hlt : seq < rightEdge a seq := by
    rcases Nat.lt_or_eq_of_le hle with hlt | heq
    · exact hlt
    · exact absurd (heq ▸ hseq) hright
  have hne : a.next ≠ seq := by
    rintro rfl
    exact h.next hseq
  obtain ⟨l, heq, h₁, h₂, hl, hleft⟩ := leftEdge_eq h (show a.next < rightEdge a seq by omega) hr
  have hls : l ≤ seq := by
    by_contra hgt
    exact hleft (l - 1) (by omega) (hrun (l - 1) (by omega) (by omega))
  exact ⟨(l, rightEdge a seq), by rw [heq]; rfl,
    ⟨by dsimp only; omega, fun i hi => hl i hi.1 hi.2, hleft, hright⟩, h₁, hls, hlt⟩

end

/-- What an acknowledgement has to say: different maximal runs above `next`, that of the
packet first. -/
structure Reports (nblocks : ℕ) (R : Set ℕ) (next seq : ℕ) (k : Ack) : Prop where
  runs : ∀ b ∈ k.blocks, ∃ c, b = blockOf c ∧ MaximalRun R c ∧ next < c.1
  disjoint : k.blocks.Pairwise fun b c => b.2 ≤ c.1 ∨ c.2 ≤ b.1
  first : next ≤ seq → ∃ b, k.blocks.head? = some b ∧ b.1 ≤ seq ∧ seq < b.2
  length : k.saLength ≤ nblocks

/-- A duplicate above `next_` is not reported when there is room for one block only, or when
its run is the last but one that the stack has room for. -/
def Spared (s : Sacker) (o : TcpArrival) : Prop :=
  o.dsacks = true → s.acker.next ≤ o.seq → o.seq ≤ s.acker.maxseen →
    s.acker.seen (o.seq &&& s.acker.wndmask) ≠ 0 →
      2 ≤ s.baseNblocks ∧ ¬ ((s.sf.sfe (s.baseNblocks - 2)).1 ≤ o.seq ∧
        o.seq < (s.sf.sfe (s.baseNblocks - 2)).2)

/-- Different maximal runs above `next`. -/
structure Blocks (R : Set ℕ) (next : ℕ) (l : List (ℕ × ℕ)) : Prop where
  nodup : l.Nodup
  runs : ∀ b ∈ l, MaximalRun R b
  above : ∀ b ∈ l, next < b.1

/-- The stack holds blocks of what has been received. -/
structure Sound (nblocks : ℕ) (hist : List (ℕ × ℤ)) (s : Sacker) (l : List (ℕ × ℕ)) : Prop where
  tracks : Acker.Tracks hist s.acker
  base : s.baseNblocks = nblocks
  size : s.sf.size = nblocks
  rep : s.sf.Rep l
  fits : l.length ≤ nblocks
  blocks : Blocks (received hist) s.acker.next l

variable {R : Set ℕ} {next seq nblocks : ℕ} {l l' : List (ℕ × ℕ)} {c : ℕ × ℕ}

theorem Blocks.nil (R : Set ℕ) (next : ℕ) : Blocks R next [] :=
  ⟨nodup_nil, by simp, by simp⟩

theorem Blocks.sublist (h : Blocks R next l) (hl : l'.Sublist l) : Blocks R next l' :=
  ⟨h.nodup.sublist hl, fun b hb => h.runs b (hl.subset hb), fun b hb => h.above b (hl.subset hb)⟩

theorem Blocks.right_le (h : Blocks R next l) {maxseen : ℕ} (hR : ∀ i ∈ R, i ≤ maxseen) :
    ∀ b ∈ l, b.2 ≤ maxseen + 1 := by
  intro b hb
  have hlt := (h.runs b hb).nonempty
  have := hR (b.2 - 1) ((h.runs b hb).mem (by omega) (by omega))
  omega

theorem Blocks.cons (h : Blocks R next l) (hc : MaximalRun (insert seq R) c)
    (hseq : seq ∈ Set.Ico c.1 c.2) (hnext : next < c.1)
    (hnot : ∀ b ∈ l, ¬ (c.1 ≤ b.1 ∧ b.2 ≤ c.2)) : Blocks (insert seq R) next (c :: l) := by
  refine ⟨nodup_cons.2 ⟨fun hmem => hnot c hmem ⟨le_rfl, le_rfl⟩, h.nodup⟩, ?_, ?_⟩
  · intro b hb
    rcases mem_cons.1 hb with rfl | hb
    · exact hc
    · exact ((h.runs b hb).insert_or_covered hc hseq).resolve_right (hnot b hb)
  · intro b hb
    rcases mem_cons.1 hb with rfl | hb
    · exact hnext
    · exact h.above b hb

theorem Blocks.reports (h : Blocks R next l) {dsack : Option (ℤ × ℤ)}
    (hlength : dsack.toList.length + l.length ≤ nblocks)
    (hfirst : next ≤ seq → ∃ b, l.head? = some b ∧ seq ∈ Set.Ico b.1 b.2) :
    Reports nblocks R next seq ⟨dsack, l.map blockOf⟩ := by
  refine ⟨fun b hb => ?_, ?_, fun hle => ?_, by simpa [Ack.saLength] using hlength⟩
  · obtain ⟨c, hc, rfl⟩ := mem_map.1 hb
    exact ⟨c, rfl, h.runs c hc, h.above c hc⟩
  · rw [pairwise_map]
    refine (h.nodup.imp_of_mem fun {b c} hb hc hne => ?_)
    have := (h.runs b hb).disjoint (h.runs c hc) hne
    simp only [blockOf]
    omega
  · obtain ⟨b, hb, hl, hr⟩ := hfirst hle
    refine ⟨blockOf b, by simp [hb], ?_, ?_⟩
    · simpa [blockOf] using hl
    · simpa [blockOf] using hr

theorem oldBlocks_blocks (recent : ℤ × ℤ) (room : ℕ) {maxseen : ℕ} {sf : SackStack}
    (hrep : sf.Rep l) (hright : ∀ b ∈ l, b.2 ≤ maxseen + 1) :
    ∃ sf' l₁ l₂, l = l₁ ++ l₂ ∧
      oldBlocks maxseen recent (sf.cnt + room + 1) room 0 sf = some ((l₁.filter fun b : ℕ × ℕ =>
        !decide (recent.1 ≤ b.1 ∧ recent.2 ≥ b.2)).map blockOf, sf') ∧
      sf'.size = sf.size ∧
      sf'.Rep ((l₁.filter fun b : ℕ × ℕ => !decide (recent.1 ≤ b.1 ∧ recent.2 ≥ b.2)) ++ l₂) ∧
      (l₁.filter fun b : ℕ × ℕ => !decide (recent.1 ≤ b.1 ∧ recent.2 ≥ b.2)).length ≤ room ∧
      (l₂ = [] ∨
        (l₁.filter fun b : ℕ × ℕ => !decide (recent.1 ≤ b.1 ∧ recent.2 ≥ b.2)).length = room) := by
  have hfuel : l.length + room < sf.cnt + room + 1 := by
    rw [hrep.cnt]
    omega
  obtain ⟨sf', heq, hsize, hrep'⟩ := oldBlocks_eq recent [] hrep hfuel hright
  obtain ⟨l₁, l₂, hl, hscan, hle, hrest⟩ :=
    scanStack_cases (fun b : ℕ × ℕ => decide (recent.1 ≤ b.1 ∧ recent.2 ≥ b.2)) room l
  rw [hscan] at heq hrep'
  exact ⟨sf', l₁, l₂, hl, heq, hsize, hrep', hle, hrest⟩

section

variable {hist : List (ℕ × ℤ)} {s : Sacker} {a' : Acker} {numBytes d : ℤ} {dsacks : Bool}

section

variable (h : Acker.Tracks hist s.acker) (ht : Acker.Tracks ((seq, numBytes) :: hist) a')
include h ht

theorem next_le :
    s.acker.next ≤ a'.next := by
  by_contra hlt
  exact ht.next (mem_cons_of_mem _ (h.window.below a'.next (by omega)))

theorem next_eq (hne : seq ≠ s.acker.next) : a'.next = s.acker.next := by
  apply le_antisymm ?_ (next_le h ht)
  by_contra hlt
  rcases mem_cons.1 (ht.window.below s.acker.next (by omega)) with heq | hin
  · exact hne heq.symm
  · exact h.next hin

end

/-- What the loop over the stack leaves of a stack of runs when the run of the packet comes
on top. -/
theorem kept_not_covered (hl : Blocks R next l)
    (hc : MaximalRun (insert seq R) c) (hseq : seq ∈ Set.Ico c.1 c.2) {sackIndex : ℕ}
    {l₁ l₂ : List (ℕ × ℕ)} (happ : l = l₁ ++ l₂) {covered : ℕ × ℕ → Bool}
    (hcov : ∀ b, covered b = true ↔ c.1 ≤ b.1 ∧ b.2 ≤ c.2)
    (hroom : l₂ = [] ∨ (l₁.filter fun b => !covered b).length = nblocks - sackIndex - 1)
    (hindex : sackIndex = 0 ∨ sackIndex = 1 ∧ 2 ≤ nblocks ∧ insert seq R = R ∧
      ∀ b, l[nblocks - 2]? = some b → seq ∉ Set.Ico b.1 b.2) :
    ∀ b ∈ ((l₁.filter fun b => !covered b) ++ l₂).take (nblocks - 1),
      ¬ (c.1 ≤ b.1 ∧ b.2 ≤ c.2) := by
  intro b hb
  rw [take_append] at hb
  rcases mem_append.1 hb with hb | hb
  · have hkeep := (mem_filter.1 (mem_of_mem_take hb)).2
    rw [← hcov]
    simpa using hkeep
  · rcases hroom with rfl | hroom
    · simp at hb
    · rcases hindex with rfl | ⟨rfl, htwo, hsame, hspared⟩
      · rw [hroom, Nat.sub_zero, Nat.sub_self, take_zero] at hb
        cases hb
      · -- one entry of the rest stays; it is not the run of the packet
        rw [hroom, show nblocks - 1 - (nblocks - 1 - 1) = 1 by omega] at hb
        cases l₂ with
        | nil => simp at hb
        | cons e l₂ =>
          obtain rfl : b = e := by simpa using hb
          rw [hsame] at hc
          have hmem : b ∈ l := by simp [happ]
          rintro ⟨hl₁, hl₂⟩
          have hb := hl.runs b hmem
          have heq : b = c := hb.eq_of_mem hc (i := b.1) ⟨le_rfl, hb.nonempty⟩
            ⟨hl₁, hb.nonempty.trans_le hl₂⟩
          have hall : ∀ x ∈ l₁, (!covered x) = true := by
            intro x hx
            by_contra hcovered
            have hx' := (hcov x).1 (by simpa using hcovered)
            have hxrun := hl.runs x (by simp [happ, hx])
            have hxc : x = c := hxrun.eq_of_mem hc (i := x.1) ⟨le_rfl, hxrun.nonempty⟩
              ⟨hx'.1, hxrun.nonempty.trans_le hx'.2⟩
            have hnodup := hl.nodup
            rw [happ, nodup_append] at hnodup
            exact hnodup.2.2 x hx b mem_cons_self (hxc.trans heq.symm)
          rw [filter_eq_self.2 hall] at hroom
          refine hspared b ?_ (heq ▸ hseq)
          rw [happ, getElem?_append_right (by omega),
            show nblocks - 2 - l₁.length = 0 by omega]
          rfl

theorem Sound.above (h : Sound nblocks hist s l) (hn : 0 < nblocks)
    (hu : Acker.Updates hist s.acker seq numBytes a' d)
    (ht : Acker.Tracks ((seq, numBytes) :: hist) a') (hle : a'.next ≤ seq)
    (hspared : dsacks = true → seq ∈ received hist → 2 ≤ nblocks ∧
      ∀ b, l[nblocks - 2]? = some b → seq ∉ Set.Ico b.1 b.2) :
    ∃ s' k l', appendAck dsacks seq { s with acker := a' } = some (s', k) ∧
      Sound nblocks ((seq, numBytes) :: hist) s' l' ∧
      Reports nblocks (received ((seq, numBytes) :: hist)) s'.acker.next seq k := by
  have hin : seq ∈ received ((seq, numBytes) :: hist) := by
    rw [received_cons]
    exact Set.mem_insert _ _
  have hmax := ht.window.above seq hin
  have hnext : a'.next = s.acker.next := by
    apply next_eq h.tracks ht
    rintro rfl
    exact ht.next (le_antisymm hle (next_le h.tracks ht) ▸ hin)
  obtain ⟨c, hrecent, hc, hcnext, hcseq⟩ := recent_run ht hin hle
  rw [received_cons] at hc hin ⊢
  have hblocks : Blocks (received hist) a'.next l := hnext ▸ h.blocks
  set dsack : Option (ℤ × ℤ) :=
    if dsacks = true ∧ a'.isDup = true then some (seq, seq + 1) else none with hdsack
  have hindex : dsack.toList.length = 0 ∨ dsack.toList.length = 1 ∧ 2 ≤ nblocks ∧
      insert seq (received hist) = received hist ∧
      ∀ b, l[nblocks - 2]? = some b → seq ∉ Set.Ico b.1 b.2 := by
    rw [hdsack]
    split_ifs with hd
    · have hold : seq ∈ received hist := hu.isDup.1 hd.2
      obtain ⟨htwo, hrun⟩ := hspared hd.1 hold
      exact Or.inr ⟨rfl, htwo, Set.insert_eq_of_mem hold, hrun⟩
    · exact Or.inl rfl
  have hsmall : dsack.toList.length < nblocks := by omega
  have hright : ∀ b ∈ l, b.2 ≤ a'.maxseen + 1 :=
    hblocks.right_le fun i hi => ht.window.above i (mem_cons_of_mem _ hi)
  obtain ⟨sf', l₁, l₂, happ, hold, hsize, hrep, hlen, hroom⟩ :=
    oldBlocks_blocks (blockOf c) (nblocks - dsack.toList.length - 1) h.rep hright
  have hcov : ∀ b : ℕ × ℕ, decide ((blockOf c).1 ≤ (b.1 : ℤ) ∧ (blockOf c).2 ≥ (b.2 : ℤ)) = true ↔
      c.1 ≤ b.1 ∧ b.2 ≤ c.2 := by
    intro b
    simp [blockOf]
  have hkept := kept_not_covered hblocks hc hcseq happ hcov hroom hindex
  set f := l₁.filter fun b : ℕ × ℕ =>
    !decide ((blockOf c).1 ≤ (b.1 : ℤ) ∧ (blockOf c).2 ≥ (b.2 : ℤ)) with hf
  have hsub : (f ++ l₂).Sublist l := by
    rw [happ]
    exact filter_sublist.append_right _
  have hwritten : Blocks (insert seq (received hist)) a'.next (c :: f) := by
    apply (hblocks.sublist ((sublist_append_left f l₂).trans hsub)).cons hc hcseq hcnext
    intro b hb
    rw [← hcov, Bool.not_eq_true, ← Bool.not_eq_true']
    exact (mem_filter.1 hb).2
  have hstack : Blocks (insert seq (received hist)) a'.next (c :: (f ++ l₂).take (nblocks - 1)) :=
    (hblocks.sublist ((take_sublist _ _).trans hsub)).cons hc hcseq hcnext hkept
  have hpush := hrep.push (by rw [hsize, h.size]; exact hsub.length_le.trans h.fits)
    (by rw [hsize, h.size]; exact hn) c
  rw [hsize, h.size] at hpush
  refine ⟨{ s with acker := a', sf := sf'.push (blockOf c) }, ⟨dsack, (c :: f).map blockOf⟩,
    c :: (f ++ l₂).take (nblocks - 1), ?_, ⟨ht, h.base, ?_, hpush, ?_, ?_⟩, ?_⟩
  · rw [appendAck]
    dsimp only
    rw [if_neg (by omega), if_pos ⟨Or.inl (by omega), by rw [h.base]; exact hn⟩, h.base, ← hdsack,
      if_neg (by omega), if_neg (by omega), hrecent, hold]
    rfl
  · exact hsize.trans h.size
  · rw [length_cons, length_take]
    omega
  · rw [received_cons]
    exact hstack
  · refine hwritten.reports ?_ fun _ => ⟨c, rfl, hcseq⟩
    rw [length_cons]
    omega

/-- Seen from a packet below `next_`, the first hole is not behind `next_`, and it is
`next_` when the packet was waited for. -/
theorem rightEdge_below (ht : Acker.Tracks ((seq, numBytes) :: hist) a') (hlt : seq < a'.next) :
    rightEdge a' seq ≤ a'.next ∧
      ((∀ i, seq ≤ i → i < a'.next → a'.seen (i &&& a'.wndmask) ≠ 0) →
        rightEdge a' seq = a'.next) := by
  have hleft := ht.window.left
  obtain ⟨hle, hr, hbefore, hstop⟩ := rightEdge_cases a' seq (by omega)
  have hupper : rightEdge a' seq ≤ a'.next := by
    by_contra hgt
    have hzero := (seen_eq_zero ht le_rfl hleft).2 ht.next
    exact hbefore a'.next (by omega) (by omega) hzero
  refine ⟨hupper, fun hseen => le_antisymm hupper ?_⟩
  by_contra hgt
  exact hseen (rightEdge a' seq) hle (by omega) (hstop (by omega))

theorem Blocks.advance (h : Blocks R next l) {next' : ℕ} (hlt : next < next')
    (hrest : next' ∉ insert next R) (hkeep : ∀ b ∈ l, next' < b.2) :
    Blocks (insert next R) next' l := by
  have hout : ∀ b ∈ l, next' < b.1 := by
    intro b hb
    by_contra hge
    exact hrest (Set.mem_insert_of_mem _ ((h.runs b hb).mem (by omega) (hkeep b hb)))
  refine ⟨h.nodup, fun b hb => (h.runs b hb).insert ?_ ?_, hout⟩
  · have := hout b hb
    omega
  · have := h.above b hb
    have := (h.runs b hb).nonempty
    omega

theorem Sound.below (h : Sound nblocks hist s l) (hn : 0 < nblocks)
    (hu : Acker.Updates hist s.acker seq numBytes a' d)
    (ht : Acker.Tracks ((seq, numBytes) :: hist) a') (hlt : seq < a'.next) :
    ∃ s' k l', appendAck dsacks seq { s with acker := a' } = some (s', k) ∧
      Sound nblocks ((seq, numBytes) :: hist) s' l' ∧
      Reports nblocks (received ((seq, numBytes) :: hist)) s'.acker.next seq k := by
  have hnone : ∀ k : Ack, k.blocks = [] → k.saLength ≤ nblocks →
      Reports nblocks (received ((seq, numBytes) :: hist)) a'.next seq k := by
    rintro ⟨dsack, blocks⟩ rfl hlen
    exact (Blocks.nil _ _).reports hlen fun hle => absurd hlt (by omega)
  have hdup : a'.isDup = true → Blocks (received ((seq, numBytes) :: hist)) a'.next l := by
    intro hd
    have hold : seq ∈ received hist := hu.isDup.1 hd
    rw [received_cons, Set.insert_eq_of_mem hold, next_eq h.tracks ht]
    · exact h.blocks
    · rintro rfl
      exact h.tracks.next hold
  rw [appendAck]
  dsimp only
  by_cases hreset : a'.next > a'.maxseen ∧ s.sf.cnt ≠ 0
  · rw [if_pos hreset]
    exact ⟨_, _, [], rfl, ⟨ht, h.base, h.size, h.rep.reset, Nat.zero_le _, Blocks.nil _ _⟩,
      hnone _ rfl (Nat.zero_le _)⟩
  rw [if_neg hreset]
  by_cases hbuild : (a'.next ≤ a'.maxseen ∨ a'.isDup = true) ∧ s.baseNblocks > 0
  · rw [if_pos hbuild]
    set dsack : Option (ℤ × ℤ) :=
      if dsacks = true ∧ a'.isDup = true then some (seq, seq + 1) else none with hdsack
    have hindex : dsack.toList.length = 0 ∨ dsack.toList.length = 1 ∧ a'.isDup = true := by
      rw [hdsack]
      split_ifs with hd
      · exact Or.inr ⟨rfl, hd.2⟩
      · exact Or.inl rfl
    rw [h.base]
    by_cases hfull : dsack.toList.length ≥ nblocks
    · rw [if_pos hfull]
      have hd : a'.isDup = true := (hindex.resolve_left (by omega)).2
      refine ⟨_, _, l, rfl, ⟨ht, rfl, h.size, h.rep, h.fits, hdup hd⟩, hnone _ rfl ?_⟩
      simp only [Ack.saLength, length_nil]
      omega
    · rw [if_neg hfull, if_pos hlt]
      have hright : ∀ b ∈ l, b.2 ≤ a'.maxseen + 1 :=
        h.blocks.right_le fun i hi => ht.window.above i (mem_cons_of_mem _ hi)
      obtain ⟨sf', l₁, l₂, happ, hold, hsize, hrep, hlen, hroom⟩ :=
        oldBlocks_blocks (0, (rightEdge a' seq : ℤ)) (nblocks - dsack.toList.length) h.rep hright
      rw [hold]
      set f := l₁.filter fun b : ℕ × ℕ =>
        !decide ((0 : ℤ) ≤ (b.1 : ℤ) ∧ (rightEdge a' seq : ℤ) ≥ (b.2 : ℤ)) with hf
      have hsub : (f ++ l₂).Sublist l := by
        rw [happ]
        exact filter_sublist.append_right _
      have hkept : Blocks (received ((seq, numBytes) :: hist)) a'.next (f ++ l₂) := by
        by_cases hd : a'.isDup = true
        · exact (hdup hd).sublist hsub
        · have hnew : seq ∉ received hist := fun hin => hd (hu.isDup.2 hin)
          have hseq : seq = s.acker.next := by
            by_contra hne
            have hsame := next_eq h.tracks ht hne
            exact hnew (h.tracks.window.below seq (by omega))
          have hzero : dsack.toList.length = 0 := hindex.resolve_right fun hd' => hd hd'.2
          have hnil : l₂ = [] := by
            rcases hroom with hnil | hall
            · exact hnil
            · have h₁ : f.length ≤ l₁.length := length_filter_le _ _
              have h₂ := h.fits
              rw [happ, length_append] at h₂
              exact eq_nil_of_length_eq_zero (by omega)
          have hedge := (rightEdge_below ht hlt).2 fun i h₁ h₂ => hu.trail i (hseq ▸ h₁) h₂
          have hnext := ht.next
          rw [received_cons, hseq]
          refine (h.blocks.sublist hsub).advance (hseq ▸ hlt) ?_ fun b hb => ?_
          · rw [← hseq]
            exact received_cons (seq, numBytes) hist ▸ hnext
          · rw [hnil, append_nil] at hb
            have hkeep := (mem_filter.1 hb).2
            rw [hedge] at hkeep
            simpa using hkeep
      refine ⟨_, _, f ++ l₂, rfl, ⟨ht, rfl, hsize.trans h.size, hrep,
        hsub.length_le.trans h.fits, hkept⟩, ?_⟩
      exact (hkept.sublist (sublist_append_left f l₂)).reports (by omega)
        fun hle => absurd hlt (by omega)
  · rw [if_neg hbuild]
    have hn' : s.baseNblocks > 0 := by
      rw [h.base]
      exact hn
    have hnil : l = [] := by
      apply eq_nil_of_length_eq_zero
      rw [← h.rep.cnt]
      by_contra hne
      have hgt : a'.next > a'.maxseen := by
        by_contra hle
        exact hbuild ⟨Or.inl (by omega), hn'⟩
      exact hreset ⟨hgt, hne⟩
    subst hnil
    exact ⟨_, _, [], rfl, ⟨ht, h.base, h.size, h.rep, Nat.zero_le _, Blocks.nil _ _⟩,
      hnone _ rfl (Nat.zero_le _)⟩

theorem sound_init (nblocks : ℕ) : Sound nblocks [] (init nblocks) [] :=
  ⟨Acker.tracks_init, rfl, rfl, SackStack.rep_init nblocks, Nat.zero_le _, Blocks.nil _ _⟩

theorem Sound.recv (h : Sound nblocks hist s l) (hn : 0 < nblocks) {o : TcpArrival}
    (hbytes : 0 < o.numBytes) (hspared : Spared s o) :
    ∃ s' k l', s.recv o = some (s', k) ∧ Sound nblocks ((o.seq, o.numBytes) :: hist) s' l' ∧
      Reports nblocks (received ((o.seq, o.numBytes) :: hist)) s'.acker.next o.seq k := by
  obtain ⟨a', d, hstep, ht, hu⟩ := h.tracks.update hbytes o.seq
  rw [Sacker.recv, hstep, bind_some]
  dsimp only
  rcases Nat.lt_or_ge o.seq a'.next with hlt | hge
  · exact h.below hn hu ht hlt
  · refine h.above hn hu ht hge fun hd hold => ?_
    have hle : s.acker.next ≤ o.seq := (next_le h.tracks ht).trans hge
    have hmax := h.tracks.window.above o.seq hold
    obtain ⟨htwo, hentry⟩ := hspared hd hle hmax fun hzero =>
      (seen_eq_zero h.tracks hle (by omega)).1 hzero hold
    rw [h.base] at htwo hentry
    refine ⟨htwo, fun b hb hin => hentry ?_⟩
    rw [h.rep.sfe, hb]
    exact ⟨by simpa [blockOf] using hin.1, by simpa [blockOf] using hin.2⟩

end

/-- The history of a run, the last arrival first. -/
def history (os : List TcpArrival) : List (ℕ × ℤ) := os.reverse.map fun o => (o.seq, o.numBytes)

theorem Sound.run {hist : List (ℕ × ℤ)} {s : Sacker} (h : Sound nblocks hist s l)
    (hn : 0 < nblocks) {os : List TcpArrival} (hbytes : ∀ o ∈ os, 0 < o.numBytes)
    (hos : machine.RunsWith Spared s os) :
    ∃ s' ks l', machine.run s os = some (s', ks) ∧ Sound nblocks (history os ++ hist) s' l' := by
  induction os generalizing s hist l with
  | nil => exact ⟨s, [], l, rfl, h⟩
  | cons o os ih =>
    obtain ⟨s₁, k, l₁, hstep, h₁, -⟩ := h.recv hn (hbytes o mem_cons_self) hos.1
    obtain ⟨s', ks, l', hrun, h'⟩ := ih h₁ (fun o ho => hbytes o (mem_cons_of_mem _ ho))
      (hos.2 s₁ k hstep)
    refine ⟨s', k :: ks, l', ?_, ?_⟩
    · rw [Machine.run_cons machine os hstep, hrun]
      rfl
    · simpa [history] using h'

/-- Packets 0, 8 and 5. -/
def gaps : List TcpArrival := [⟨0, 1000, true⟩, ⟨8, 1000, false⟩, ⟨5, 1000, false⟩]

def between : TcpArrival := ⟨2, 1000, false⟩

end Sacker

end Ns2
