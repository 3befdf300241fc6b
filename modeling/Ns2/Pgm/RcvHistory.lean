import Ns2.Pgm.RcvBuffer

/-! `RcvBuffer` against the history of the calls. -/

namespace Ns2

open List Ranges

namespace RcvBuffer

variable {K : Type*} {past : List (ℤ × K)} {i n : ℤ} {t : K}

/-- One more than the largest number added; the latest call comes first. -/
def next : List (ℤ × K) → ℤ
  | [] => 0
  | c :: past => max (next past) (c.1 + 1)

/-- The numbers not added below the largest one. -/
def Missing (past : List (ℤ × K)) (n : ℤ) : Prop := 0 ≤ n ∧ n < next past ∧ n ∉ past.map Prod.fst

/-- The time of the first call with a larger number. -/
def detected : List (ℤ × K) → ℤ → Option K
  | [], _ => none
  | c :: past, n => (detected past n).or (if n < c.1 then some c.2 else none)

/-- The calls that repeat a number. -/
def repeats : List (ℤ × K) → ℤ
  | [] => 0
  | c :: past => repeats past + if c.1 ∈ past.map Prod.fst then 1 else 0

/-- The first arrivals below a number that came earlier. -/
def late : List (ℤ × K) → ℤ
  | [] => 0
  | c :: past => late past + if c.1 ∉ past.map Prod.fst ∧ c.1 < next past then 1 else 0

theorem lt_next (h : n ∈ past.map Prod.fst) : n < next past := by
  induction past with
  | nil => cases h
  | cons c past ih =>
    rcases mem_cons.1 h with rfl | h
    · exact lt_max_of_lt_right (Int.lt_succ _)
    · exact lt_max_of_lt_left (ih h)

theorem pred_next_mem (h : 0 < next past) : next past - 1 ∈ past.map Prod.fst := by
  induction past with
  | nil => exact absurd h (lt_irrefl 0)
  | cons c past ih =>
    rw [map_cons, mem_cons, next]
    rcases le_total (next past) (c.1 + 1) with hle | hle
    · left
      rw [max_eq_right hle, add_sub_cancel_right]
    · right
      rw [next, max_eq_left hle] at h
      rw [max_eq_left hle]
      exact ih h

theorem next_nonneg : 0 ≤ next past := by
  induction past with
  | nil => exact le_rfl
  | cons c past ih => exact le_max_of_le_left ih

theorem detected_eq_none (h : next past ≤ n) : detected past n = none := by
  induction past with
  | nil => rfl
  | cons c past ih =>
    have := max_le_iff.1 h
    rw [detected, ih this.1, if_neg (by omega), Option.or_none]

theorem counts_le (past : List (ℤ × K)) : repeats past ≤ past.length ∧ late past ≤ past.length := by
  induction past with
  | nil => exact ⟨le_rfl, le_rfl⟩
  | cons c past ih =>
    simp only [repeats, late, length_cons, Nat.cast_succ]
    constructor
    · split_ifs <;> omega
    · split_ifs <;> omega

structure Covers (gaps : List (Gap K)) (missing : ℤ → Prop) (time : ℤ → Option K) : Prop where
  apart : Apart (gaps.map Gap.range)
  mem_iff : ∀ n, n ∈ cover (gaps.map Gap.range) ↔ missing n
  time : ∀ g ∈ gaps, ∀ n, g.start ≤ n → n ≤ g.end_ → time n = some g.time

/-- The tail is the last cell, and the cells are different and older than the next one. -/
structure Linked (cells : List ℕ) (tail : Option ℕ) (fresh : ℕ) : Prop where
  tail : tail = cells.getLast?
  nodup : cells.Nodup
  lt : ∀ a ∈ cells, a < fresh

variable {gaps pre post : List (Gap K)} {g : Gap K} {missing missing' : ℤ → Prop}
  {time : ℤ → Option K} {cells l₁ l₂ : List ℕ} {tail : Option ℕ} {fresh a : ℕ}

theorem Covers.of_iff (h : Covers gaps missing time) (hiff : ∀ n, missing n ↔ missing' n) :
    Covers gaps missing' time :=
  ⟨h.apart, fun n => (h.mem_iff n).trans (hiff n), h.time⟩

theorem Covers.cons (h : Covers gaps missing (detected past)) (c : ℤ × K) :
    Covers gaps missing (detected (c :: past)) :=
  ⟨h.apart, h.mem_iff, fun g hg n h₁ h₂ => by rw [detected, h.time g hg n h₁ h₂, Option.some_or]⟩

theorem Covers.mem_gap (h : Covers gaps missing time) (hg : g ∈ gaps) (h₁ : g.start ≤ n)
    (h₂ : n ≤ g.end_) : missing n :=
  (h.mem_iff n).1 (mem_cover_map.2 ⟨g, hg, h₁, Int.lt_add_one_of_le h₂⟩)

theorem Covers.le (h : Covers gaps missing time) (hg : g ∈ gaps) : g.start ≤ g.end_ :=
  Int.le_of_lt_add_one (h.apart.nonempty _ (mem_map_of_mem hg))

/-- A gap is replaced by what is left of it without the number `i`. -/
theorem Covers.replace (parts : List (Gap K)) (h : Covers (pre ++ g :: post) missing time)
    (h₁ : g.start ≤ i) (h₂ : i ≤ g.end_) (hparts : Apart (parts.map Gap.range))
    (hcover : ∀ n, n ∈ cover (parts.map Gap.range) ↔ (g.start ≤ n ∧ n ≤ g.end_) ∧ n ≠ i)
    (htime : ∀ p ∈ parts, p.time = g.time) :
    Covers (pre ++ (parts ++ post)) (fun n => missing n ∧ n ≠ i) time := by
  have hin : ∀ p ∈ parts, g.start ≤ p.start ∧ p.end_ ≤ g.end_ := by
    intro p hp
    have hle := hparts.nonempty _ (mem_map_of_mem hp)
    rw [Gap.range_fst, Gap.range_snd] at hle
    have hs := (hcover p.start).1 (mem_cover_map.2 ⟨p, hp, le_rfl, hle⟩)
    have he := (hcover p.end_).1 (mem_cover_map.2 ⟨p, hp, Int.le_of_lt_add_one hle, by simp⟩)
    exact ⟨hs.1.1, he.1.2⟩
  have hapart := h.apart
  rw [map_append, map_cons] at hapart
  obtain ⟨hpre, hcons, hbefore⟩ := apart_append.1 hapart
  obtain ⟨-, hpost, hbehind⟩ := apart_cons.1 hcons
  have hbefore' : ∀ p ∈ pre, p.end_ + 1 < g.start := fun p hp =>
    hbefore _ (mem_map_of_mem hp) _ mem_cons_self
  have hbehind' : ∀ p ∈ post, g.end_ + 1 < p.start := fun p hp => hbehind _ (mem_map_of_mem hp)
  refine ⟨?_, fun n => ?_, fun p hp n hn₁ hn₂ => ?_⟩
  · rw [map_append, map_append]
    refine apart_append.2 ⟨hpre, apart_append.2 ⟨hparts, hpost, ?_⟩, ?_⟩
    · rintro a ha b hb
      obtain ⟨p, hp, rfl⟩ := mem_map.1 ha
      have := (hin p hp).2
      have hlt := hbehind b hb
      rw [Gap.range_snd] at hlt ⊢
      omega
    · rintro a ha b hb
      have hlt := hbefore a ha _ mem_cons_self
      rcases mem_append.1 hb with hb | hb
      · obtain ⟨p, hp, rfl⟩ := mem_map.1 hb
        exact hlt.trans_le (hin p hp).1
      · exact hbefore a ha b (mem_cons_of_mem _ hb)
  · rw [← h.mem_iff]
    simp only [map_append, map_cons, cover_append, cover_cons, Finset.mem_union, hcover,
      Finset.mem_Ico, Gap.range_fst, Gap.range_snd, Int.lt_add_one_iff]
    have hne : ∀ {l : List (Gap K)}, (∀ p ∈ l, p.end_ < i ∨ i < p.start) →
        n ∈ cover (l.map Gap.range) → n ≠ i := by
      rintro l hl hn rfl
      obtain ⟨p, hp, hn₁, hn₂⟩ := mem_cover_map.1 hn
      rw [Gap.range_fst] at hn₁
      rw [Gap.range_snd] at hn₂
      have := hl p hp
      omega
    have hne₁ := hne fun p hp => Or.inl (by have := hbefore' p hp; omega)
    have hne₂ := hne fun p hp => Or.inr (by have := hbehind' p hp; omega)
    tauto
  · rcases mem_append.1 hp with hp | hp
    · exact h.time p (mem_append_left _ hp) n hn₁ hn₂
    · rcases mem_append.1 hp with hp | hp
      · have := hin p hp
        rw [htime p hp]
        exact h.time g (by simp) n (by omega) (by omega)
      · exact h.time p (by simp [hp]) n hn₁ hn₂

theorem exists_locate (h : i ∈ cover (gaps.map Gap.range)) : ∃ pre g post,
    locate i gaps = some (pre, g, post) ∧ gaps = pre ++ g :: post ∧ g.start ≤ i ∧ i ≤ g.end_ := by
  induction gaps with
  | nil => simp at h
  | cons g gaps ih =>
    by_cases hi : i ≥ g.start ∧ i ≤ g.end_
    · exact ⟨[], g, gaps, if_pos hi, rfl, hi.1, hi.2⟩
    · have hgaps : i ∈ cover (gaps.map Gap.range) := by
        obtain ⟨p, hp, h₁, h₂⟩ := mem_cover_map.1 h
        rcases mem_cons.1 hp with rfl | hp
        · exact absurd ⟨h₁, Int.le_of_lt_add_one h₂⟩ hi
        · exact mem_cover_map.2 ⟨p, hp, h₁, h₂⟩
      obtain ⟨pre, g', post, hloc, rfl, hin⟩ := ih hgaps
      exact ⟨g :: pre, g', post, by rw [locate, if_neg hi, hloc]; rfl, rfl, hin⟩

theorem Linked.tail_iff (h : Linked (l₁ ++ a :: l₂) tail fresh) : tail = some a ↔ l₂ = [] := by
  rw [h.tail]
  rcases eq_nil_or_concat' l₂ with rfl | ⟨l₂, b, rfl⟩
  · simp
  · have hne : b ≠ a := by
      rintro rfl
      have := h.nodup
      simp [nodup_append] at this
    rw [← cons_append, ← append_assoc, getLast?_concat]
    simp [hne]

theorem Linked.erase (h : Linked (l₁ ++ a :: l₂) tail fresh) :
    Linked (l₁ ++ l₂) (if tail = some a then l₁.getLast? else tail) fresh := by
  have hsub : (l₁ ++ l₂).Sublist (l₁ ++ a :: l₂) := (sublist_cons_self a l₂).append_left l₁
  refine ⟨?_, h.nodup.sublist hsub, fun b hb => h.lt b (hsub.subset hb)⟩
  by_cases hl : l₂ = []
  · rw [if_pos (h.tail_iff.2 hl), hl, append_nil]
  · rw [if_neg fun hta => hl (h.tail_iff.1 hta), h.tail]
    obtain ⟨l₂, b, rfl⟩ := (eq_nil_or_concat' l₂).resolve_left hl
    rw [← cons_append, ← append_assoc, ← append_assoc, getLast?_concat, getLast?_concat]

theorem Linked.behind (h : Linked (a :: cells) tail fresh) (hne : cells ≠ []) :
    Linked cells tail fresh := by
  have h' : Linked ([] ++ a :: cells) tail fresh := h
  have herase := h'.erase
  rwa [if_neg fun hta => hne (h'.tail_iff.1 hta)] at herase

theorem Linked.grow (h : Linked (l₁ ++ a :: l₂) tail fresh) :
    Linked (l₁ ++ a :: fresh :: l₂) (if tail = some a then some fresh else tail) (fresh + 1) := by
  have hfresh : fresh ∉ l₁ ++ a :: l₂ := fun hmem => lt_irrefl _ (h.lt _ hmem)
  have hperm : (l₁ ++ a :: fresh :: l₂).Perm (fresh :: (l₁ ++ a :: l₂)) := by
    rw [append_cons, append_cons l₁ a l₂]
    exact perm_middle
  refine ⟨?_, hperm.nodup_iff.2 (nodup_cons.2 ⟨hfresh, h.nodup⟩), fun b hb => ?_⟩
  · by_cases hl : l₂ = []
    · rw [if_pos (h.tail_iff.2 hl), hl, append_cons, getLast?_concat]
    · rw [if_neg fun hta => hl (h.tail_iff.1 hta), h.tail]
      obtain ⟨l₂, b, rfl⟩ := (eq_nil_or_concat' l₂).resolve_left hl
      rw [← cons_append, ← cons_append, ← cons_append, ← append_assoc, ← append_assoc,
        getLast?_concat, getLast?_concat]
  · rcases mem_cons.1 (hperm.subset hb) with rfl | hb
    · exact Nat.lt_succ_self b
    · exact (h.lt b hb).trans (Nat.lt_succ_self _)

theorem Linked.snoc (h : Linked cells tail fresh) :
    Linked (cells ++ [fresh]) (some fresh) (fresh + 1) := by
  refine ⟨getLast?_concat.symm, ?_, fun b hb => ?_⟩
  · exact nodup_append.2 ⟨h.nodup, nodup_singleton _, fun b hb c hc hbc => by
      obtain rfl := mem_singleton.1 hc
      exact lt_irrefl _ (hbc ▸ h.lt b hb)⟩
  · rcases mem_append.1 hb with hb | hb
    · exact (h.lt b hb).trans (Nat.lt_succ_self _)
    · exact (mem_singleton.1 hb).symm ▸ Nat.lt_succ_self _

theorem linkTail_eq (h : Linked (gaps.map Gap.addr) tail fresh) (hne : gaps ≠ []) (g : Gap K) :
    linkTail tail g gaps = some (gaps ++ [g]) := by
  induction gaps with
  | nil => exact absurd rfl hne
  | cons p gaps ih =>
    have h' : Linked ([] ++ p.addr :: gaps.map Gap.addr) tail fresh := h
    have hiff : tail = some p.addr ↔ gaps = [] := h'.tail_iff.trans map_eq_nil_iff
    by_cases hgaps : gaps = []
    · rw [linkTail, if_pos (hiff.2 hgaps), hgaps]
      rfl
    · rw [linkTail, if_neg fun hta => hgaps (hiff.1 hta),
        ih (h.behind (by simpa using hgaps)) hgaps]
      rfl

structure Shape (b : RcvBuffer K) (missing : ℤ → Prop) (time : ℤ → Option K) : Prop where
  covers : Covers b.gaps missing time
  linked : Linked (b.gaps.map Gap.addr) b.tail b.fresh
  maxpkt : b.maxpkt + 1 = b.gaps.head?.elim b.nextpkt Gap.start

variable {b : RcvBuffer K}

theorem Shape.cut (h : Shape b missing time) (hgaps : b.gaps = pre ++ g :: post)
    (h₁ : g.start < i) (h₂ : i ≤ g.end_) :
    Shape (b.cut i pre g post) (fun n => missing n ∧ n ≠ i) time := by
  have hc := h.covers
  have hl := h.linked
  have hm := h.maxpkt
  rw [hgaps] at hc hl hm
  rw [map_append, map_cons] at hl
  unfold RcvBuffer.cut
  by_cases hend : g.end_ = i
  · rw [if_pos hend]
    refine ⟨hc.replace [{ g with end_ := g.end_ - 1 }] h₁.le h₂ ?_ (fun n => ?_) ?_,
      ?_, ?_⟩
    · exact apart_cons.2 ⟨by simp; omega, apart_nil, by simp⟩
    · simp
      omega
    · simp
    · rwa [map_append, map_cons]
    · rw [hm]
      cases pre <;> rfl
  · rw [if_neg hend]
    refine ⟨hc.replace [{ g with end_ := i - 1 }, ⟨b.fresh, i + 1, g.end_, g.time⟩]
      h₁.le h₂ ?_ (fun n => ?_) ?_, ?_, ?_⟩
    · exact apart_cons.2 ⟨by simp; omega, apart_cons.2 ⟨by simp; omega, apart_nil, by simp⟩,
        by simp⟩
    · simp
      omega
    · simp
    · rw [map_append, map_cons, map_cons]
      exact hl.grow
    · rw [hm]
      cases pre <;> rfl

/-- The first number of a gap is taken out. -/
theorem Covers.front (pre : List (Gap K)) (h : Covers (pre ++ g :: post) missing time) :
    Covers (pre ++ if g.start + 1 > g.end_ then post else { g with start := g.start + 1 } :: post)
      (fun n => missing n ∧ n ≠ g.start) time := by
  have hle := h.le (g := g) (by simp)
  split_ifs with hend
  · refine h.replace [] le_rfl hle apart_nil (fun n => ?_) (by simp)
    simp
    omega
  · refine h.replace [{ g with start := g.start + 1 }] le_rfl hle ?_ (fun n => ?_) ?_
    · exact apart_cons.2 ⟨by simp; omega, apart_nil, by simp⟩
    · simp
      omega
    · simp

/-- The buffer after the calls of the history. -/
structure Holds (b : RcvBuffer K) (past : List (ℤ × K)) : Prop where
  shape : Shape b (Missing past) (detected past)
  nextpkt : b.nextpkt = next past
  duplicates : b.duplicates = repeats past
  pktsRecovered : b.pktsRecovered = late past

theorem Shape.head (h : Shape b missing time) : b.gaps = [] ∧ b.maxpkt + 1 = b.nextpkt ∨
    ∃ a l, b.gaps = a :: l ∧ b.maxpkt + 1 = a.start ∧ missing (b.maxpkt + 1) := by
  have hm := h.maxpkt
  cases hgaps : b.gaps with
  | nil =>
    rw [hgaps] at hm
    exact Or.inl ⟨rfl, hm⟩
  | cons a l =>
    rw [hgaps] at hm
    have hmem : a ∈ b.gaps := hgaps ▸ mem_cons_self
    exact Or.inr ⟨a, l, rfl, hm, hm ▸ h.covers.mem_gap hmem le_rfl (h.covers.le hmem)⟩

theorem Shape.maxpkt_lt (h : Shape b missing time) (hg : g ∈ b.gaps) : b.maxpkt < g.start := by
  have hapart := h.covers.apart
  have hle : ∀ a ∈ b.gaps, a.start ≤ a.end_ := fun a ha => h.covers.le ha
  rcases h.head with ⟨hnil, -⟩ | ⟨a, l, hgaps, hm, -⟩
  · rw [hnil] at hg
    cases hg
  · rw [hgaps] at hapart hg hle
    have hfirst := hle a mem_cons_self
    rcases mem_cons.1 hg with rfl | hg
    · omega
    · obtain ⟨-, -, hbehind⟩ := apart_cons.1 hapart
      have hlt : a.end_ + 1 < g.start := hbehind _ (mem_map_of_mem hg)
      omega

theorem Holds.maxpkt_lt (h : Holds b past) : b.maxpkt < b.nextpkt := by
  rcases h.shape.head with ⟨-, hm⟩ | ⟨a, l, -, -, hmiss⟩
  · omega
  · have := h.nextpkt
    have := hmiss.2.1
    omega

theorem Holds.existsPkt_iff (h : Holds b past) (hi : 0 ≤ i) :
    b.existsPkt i ↔ i ∈ past.map Prod.fst := by
  have hmiss := h.shape.covers.mem_iff i
  unfold existsPkt
  split_ifs with hmax hnext
  · refine iff_of_true rfl ?_
    by_contra hnot
    have hlt : i < next past := by
      rw [← h.nextpkt]
      exact hmax.trans_lt h.maxpkt_lt
    obtain ⟨g, hg, h₁, -⟩ := mem_cover_map.1 (hmiss.2 ⟨hi, hlt, hnot⟩)
    exact absurd (h.shape.maxpkt_lt hg) (not_lt.2 (h₁.trans hmax))
  · refine iff_of_false (by simp) fun hmem => ?_
    have := lt_next hmem
    have := h.nextpkt
    omega
  · have hlt : i < next past := by
      rw [← h.nextpkt]
      exact not_le.1 hnext
    have hany : (b.gaps.any fun g => g.start ≤ i ∧ i ≤ g.end_) = true ↔
        i ∈ cover (b.gaps.map Gap.range) := by
      rw [mem_cover_map, any_eq_true]
      simp only [decide_eq_true_eq, Gap.range_fst, Gap.range_snd, Int.lt_add_one_iff]
    rw [Bool.not_eq_true', ← Bool.not_eq_true, hany, hmiss]
    unfold Missing
    tauto

theorem missing_cons : Missing ((i, t) :: past) n ↔
    0 ≤ n ∧ (n < next past ∨ n ≤ i) ∧ n ≠ i ∧ n ∉ past.map Prod.fst := by
  simp only [Missing, next, lt_max_iff, Int.lt_add_one_iff, map_cons, mem_cons, not_or]

theorem Holds.duplicate (h : Holds b past) (hmem : i ∈ past.map Prod.fst) :
    Holds { b with duplicates := repeats past + 1 } ((i, t) :: past) := by
  have hlt := lt_next hmem
  refine ⟨⟨(h.shape.covers.cons (i, t)).of_iff fun n => ?_, h.shape.linked, h.shape.maxpkt⟩, ?_, ?_, ?_⟩
  · rw [missing_cons, Missing]
    refine and_congr_right fun _ => ⟨fun hx => ⟨Or.inl hx.1, ?_, hx.2⟩, fun hx => ⟨?_, hx.2.2⟩⟩
    · rintro rfl
      exact hx.2 hmem
    · omega
  · rw [next, max_eq_left (by exact hlt)]
    exact h.nextpkt
  · rw [repeats, if_pos hmem]
  · rw [late, if_neg fun hx => hx.1 hmem, add_zero]
    exact h.pktsRecovered

theorem Holds.expected (h : Holds b past) (hi : i = b.nextpkt) :
    Holds { b with
      nextpkt := b.nextpkt + 1
      maxpkt := if i = b.maxpkt + 1 then b.maxpkt + 1 else b.maxpkt } ((i, t) :: past) := by
  have hn := h.nextpkt
  have hnot : i ∉ past.map Prod.fst := fun hmem => (lt_next hmem).ne (hi.trans hn)
  refine ⟨⟨(h.shape.covers.cons (i, t)).of_iff fun n => ?_, h.shape.linked, ?_⟩, ?_, ?_, ?_⟩
  · rw [missing_cons, Missing, ← hn, hi]
    refine and_congr_right fun _ => ⟨fun hx => ⟨Or.inl hx.1, hx.1.ne, hx.2⟩, ?_⟩
    rintro ⟨hx, hne, hy⟩
    exact ⟨by omega, hy⟩
  · rcases h.shape.head with ⟨hgaps, hm⟩ | ⟨a, l, hgaps, hm, hmiss⟩
    · simp [hgaps, hm, hi]
    · have := hmiss.2.1
      rw [if_neg (by omega), hgaps]
      exact hm
  · rw [next, ← hn, ← hi, max_eq_right (by simp)]
  · rw [repeats, if_neg hnot, add_zero]
    exact h.duplicates
  · rw [late, if_neg fun hx : _ ∧ i < next past => hx.2.ne (hi.trans hn), add_zero]
    exact h.pktsRecovered

theorem Holds.below (h : Holds b past) (hg : g ∈ b.gaps) : g.end_ + 1 < b.nextpkt := by
  have hmiss := h.shape.covers.mem_gap hg (h.shape.covers.le hg) le_rfl
  have hlt := hmiss.2.1
  have hne : g.end_ ≠ next past - 1 := fun heq =>
    hmiss.2.2 (heq ▸ pred_next_mem (hmiss.1.trans_lt hlt))
  rw [h.nextpkt]
  omega

theorem exists_newGap (h : Holds b past) (hgt : b.nextpkt < i) (hmax : i < 2 ^ 31 - 1) :
    ∃ b', b.newGap i t = some b' ∧ Holds b' ((i, t) :: past) := by
  have hn := h.nextpkt
  have h₀ : 0 ≤ next past := next_nonneg
  have hlink : (if b.gaps.isEmpty then some [⟨b.fresh, b.nextpkt, i - 1, t⟩]
      else linkTail b.tail ⟨b.fresh, b.nextpkt, i - 1, t⟩ b.gaps) =
      some (b.gaps ++ [⟨b.fresh, b.nextpkt, i - 1, t⟩]) := by
    cases hgaps : b.gaps with
    | nil => rfl
    | cons a gaps => exact linkTail_eq (hgaps ▸ h.shape.linked) (by simp) _
  have hnot : ∀ n, b.nextpkt ≤ n → n ∉ past.map Prod.fst := fun n hle hmem => by
    have := lt_next hmem
    omega
  rw [newGap, hlink, Option.bind_some, incr, if_pos hmax]
  refine ⟨_, rfl, ⟨⟨?_, fun n => ?_, fun g hg n h₁ h₂ => ?_⟩, ?_, ?_⟩, ?_, ?_, ?_⟩
  · rw [map_append]
    refine apart_append.2 ⟨h.shape.covers.apart, apart_cons.2 ⟨by simp [hgt], apart_nil, by simp⟩,
      fun a ha c hc => ?_⟩
    obtain ⟨g, hg, rfl⟩ := mem_map.1 ha
    obtain rfl := mem_singleton.1 hc
    exact h.below hg
  · rw [map_append, cover_append, Finset.mem_union, h.shape.covers.mem_iff, missing_cons, Missing,
      ← hn]
    simp only [map_cons, map_nil, cover_cons, cover_nil, Finset.union_empty, Finset.mem_Ico,
      Gap.range_fst, Gap.range_snd]
    constructor
    · rintro (⟨hx, hlt, hy⟩ | ⟨hx, hlt⟩)
      · exact ⟨hx, Or.inl hlt, by omega, hy⟩
      · exact ⟨by omega, Or.inr (by omega), by omega, hnot n hx⟩
    · rintro ⟨hx, hle, hne, hy⟩
      by_cases hlt : n < b.nextpkt
      · exact Or.inl ⟨hx, hlt, hy⟩
      · exact Or.inr ⟨by omega, by omega⟩
  · rcases mem_append.1 hg with hg | hg
    · exact (h.shape.covers.cons (i, t)).time g hg n h₁ h₂
    · obtain rfl := mem_singleton.1 hg
      replace h₁ : b.nextpkt ≤ n := h₁
      replace h₂ : n ≤ i - 1 := h₂
      rw [detected, detected_eq_none (hn ▸ h₁), Option.none_or, if_pos (by exact Int.le_sub_one_iff.1 h₂)]
  · rw [map_append]
    exact h.shape.linked.snoc
  · have hm := h.shape.maxpkt
    cases hgaps : b.gaps with
    | nil => rwa [hgaps] at hm
    | cons a gaps => rwa [hgaps] at hm
  · rw [next, ← hn, max_eq_right (by exact hgt.le.trans (Int.lt_succ i).le)]
  · rw [repeats, if_neg (hnot i hgt.le), add_zero]
    exact h.duplicates
  · rw [late, if_neg fun hx => hx.2.not_ge (hn ▸ hgt.le), add_zero]
    exact h.pktsRecovered

/-- What the buffer says about the calls so far. -/
structure Refines (b : RcvBuffer K) (past : List (ℤ × K)) : Prop extends Holds b past where
  existsPkt : ∀ n, 0 ≤ n → (b.existsPkt n ↔ n ∈ past.map Prod.fst)
  maxpkt_added : ∀ n, 0 ≤ n → n ≤ b.maxpkt → n ∈ past.map Prod.fst
  maxpkt_next : b.maxpkt + 1 ∉ past.map Prod.fst

theorem Holds.refines (h : Holds b past) : Refines b past := by
  refine ⟨h, fun n hn => h.existsPkt_iff hn, fun n hn hle => ?_, fun hmem => ?_⟩
  · rw [← h.existsPkt_iff hn]
    exact if_pos hle
  · rcases h.shape.head with ⟨-, hm⟩ | ⟨a, l, -, -, hmiss⟩
    · exact (lt_next hmem).ne (hm.trans h.nextpkt)
    · exact hmiss.2.2 hmem

variable [Ring K]

theorem holds_construct : Holds (construct : RcvBuffer K) [] where
  shape := by
    refine ⟨⟨apart_nil, fun n => ?_, by simp [construct]⟩, ⟨rfl, nodup_nil, by simp [construct]⟩, rfl⟩
    simp [construct, Missing, next]
  nextpkt := rfl
  duplicates := rfl
  pktsRecovered := rfl

variable [LinearOrder K]

theorem exists_recover (h : Shape b missing time) (hi : missing i) : ∃ b', b.recover i t = some b' ∧
    Shape b' (fun n => missing n ∧ n ≠ i) time ∧ b'.nextpkt = b.nextpkt ∧
    b'.duplicates = b.duplicates ∧ b'.pktsRecovered = b.pktsRecovered := by
  have hc := h.covers
  have hl := h.linked
  have hm := h.maxpkt
  have hmem := (hc.mem_iff i).2 hi
  have hcut : ∀ pre g post, b.gaps = pre ++ g :: post → g.start < i → i ≤ g.end_ →
      Shape ((b.delayed (t - g.time)).cut i pre g post) (fun n => missing n ∧ n ≠ i) time ∧
      ((b.delayed (t - g.time)).cut i pre g post).nextpkt = b.nextpkt ∧
      ((b.delayed (t - g.time)).cut i pre g post).duplicates = b.duplicates ∧
      ((b.delayed (t - g.time)).cut i pre g post).pktsRecovered = b.pktsRecovered := by
    intro pre g post hgaps h₁ h₂
    have hd : Shape (b.delayed (t - g.time)) missing time := ⟨h.covers, h.linked, h.maxpkt⟩
    refine ⟨hd.cut hgaps h₁ h₂, ?_⟩
    unfold RcvBuffer.cut
    split_ifs <;> exact ⟨rfl, rfl, rfl⟩
  unfold recover
  cases hgaps : b.gaps with
  | nil => simp [hgaps] at hmem
  | cons g rest =>
    rw [hgaps] at hc hl hm
    have hfront := Covers.front [] hc
    by_cases hin : g.start ≤ i ∧ i ≤ g.end_
    · simp only [if_pos hin]
      by_cases hmax : i = (b.delayed (t - g.time)).maxpkt + 1
      · obtain rfl : i = g.start := hmax.trans hm
        rw [if_pos hmax]
        by_cases hend : g.start + 1 > g.end_
        · rw [if_pos hend] at hfront ⊢
          cases rest with
          | nil => exact ⟨_, rfl, ⟨hfront, ⟨rfl, nodup_nil, by simp⟩, sub_add_cancel _ _⟩, rfl, rfl, rfl⟩
          | cons g' rest =>
            exact ⟨_, rfl, ⟨hfront, hl.behind (by simp), sub_add_cancel _ _⟩, rfl, rfl, rfl⟩
        · rw [if_neg hend] at hfront ⊢
          exact ⟨_, rfl, ⟨hfront, hl, congrArg (· + 1) hmax.symm⟩, rfl, rfl, rfl⟩
      · rw [if_neg hmax]
        have hlt : g.start < i := lt_of_le_of_ne hin.1 fun heq => hmax (heq ▸ hm.symm)
        exact ⟨_, rfl, hcut [] g rest hgaps hlt hin.2⟩
    · have hrest : i ∈ cover (rest.map Gap.range) := by
        obtain ⟨p, hp, h₁, h₂⟩ := mem_cover_map.1 (hgaps ▸ hmem)
        rcases mem_cons.1 hp with rfl | hp
        · exact absurd ⟨h₁, Int.le_of_lt_add_one h₂⟩ hin
        · exact mem_cover_map.2 ⟨p, hp, h₁, h₂⟩
      obtain ⟨mid, g', post, hloc, rfl, h₁, h₂⟩ := exists_locate hrest
      simp only [if_neg hin, hloc, Option.map_some]
      by_cases hstart : g'.start = i
      · subst hstart
        have hfront := Covers.front (g :: mid) hc
        rw [← cons_append, map_append, map_cons] at hl
        by_cases hend : g'.start + 1 > g'.end_
        · rw [if_pos hend] at hfront
          simp only [if_pos, if_pos hend]
          refine ⟨_, rfl, ⟨hfront, ?_, hm⟩, rfl, rfl, rfl⟩
          rw [map_append, ← getLast?_map]
          exact hl.erase
        · rw [if_neg hend] at hfront
          simp only [if_pos, if_neg hend]
          refine ⟨_, rfl, ⟨hfront, ?_, hm⟩, rfl, rfl, rfl⟩
          rwa [map_append, map_cons]
      · simp only [if_neg hstart]
        exact ⟨_, rfl, hcut (g :: mid) g' post hgaps (lt_of_le_of_ne h₁ hstart) h₂⟩

theorem exists_recover_holds (h : Holds b past) (hmiss : Missing past i) : ∃ b',
    { b with pktsRecovered := late past + 1 }.recover i t = some b' ∧ Holds b' ((i, t) :: past) := by
  have hshape : Shape { b with pktsRecovered := late past + 1 } (Missing past) (detected past) :=
    ⟨h.shape.covers, h.shape.linked, h.shape.maxpkt⟩
  obtain ⟨b', hrec, hb, hn, hd, hr⟩ := exists_recover (t := t) hshape hmiss
  obtain ⟨h₀, hlt, hnot⟩ := hmiss
  refine ⟨b', hrec, ⟨(hb.covers.cons (i, t)).of_iff fun n => ?_, hb.linked, hb.maxpkt⟩, ?_, ?_, ?_⟩
  · rw [missing_cons, Missing]
    constructor
    · rintro ⟨⟨h₀, hx, hy⟩, hne⟩
      exact ⟨h₀, Or.inl hx, hne, hy⟩
    · rintro ⟨h₀, hx, hne, hy⟩
      exact ⟨⟨h₀, by omega, hy⟩, hne⟩
  · rw [hn, next, max_eq_left (by exact hlt)]
    exact h.nextpkt
  · rw [hd, repeats, if_neg hnot, add_zero]
    exact h.duplicates
  · rw [hr, late, if_pos ⟨hnot, hlt⟩]

theorem exists_addPkt (h : Holds b past) (hi : 0 ≤ i) (hmax : i < 2 ^ 31 - 1)
    (hlen : (past.length : ℤ) < 2 ^ 31 - 1) :
    ∃ b', b.addPkt i t = some b' ∧ Holds b' ((i, t) :: past) := by
  obtain ⟨hrep, hlate⟩ := counts_le past
  have hexists := h.existsPkt_iff hi
  unfold addPkt
  by_cases hold : b.existsPkt i
  · rw [if_pos hold, incr, h.duplicates, if_pos (by omega)]
    exact ⟨_, rfl, h.duplicate (hexists.1 hold)⟩
  · rw [if_neg hold]
    rcases lt_trichotomy i b.nextpkt with hlt | heq | hgt
    · rw [if_neg hlt.ne, if_neg hlt.le.not_gt, incr, h.pktsRecovered, if_pos (by omega)]
      exact exists_recover_holds h ⟨hi, h.nextpkt ▸ hlt, fun hmem => hold (hexists.2 hmem)⟩
    · rw [if_pos heq, incr, if_pos (show b.nextpkt < 2 ^ 31 - 1 from heq ▸ hmax)]
      exact ⟨_, rfl, h.expected heq⟩
    · rw [if_neg hgt.ne', if_pos hgt]
      exact exists_newGap h hgt hmax

theorem exists_foldlM (calls : List (ℤ × K)) (h : Holds b past)
    (hcalls : ∀ c ∈ calls, 0 ≤ c.1 ∧ c.1 < 2 ^ 31 - 1)
    (hlen : ((past.length + calls.length : ℕ) : ℤ) < 2 ^ 31) :
    ∃ b', calls.foldlM (fun b c => b.addPkt c.1 c.2) b = some b' ∧
      Holds b' (calls.reverse ++ past) := by
  induction calls generalizing b past with
  | nil => exact ⟨b, rfl, h⟩
  | cons c calls ih =>
    obtain ⟨hc, hcalls⟩ := forall_mem_cons.1 hcalls
    rw [length_cons] at hlen
    obtain ⟨b₁, hadd, h₁⟩ := exists_addPkt (t := c.2) h hc.1 hc.2 (by omega)
    obtain ⟨b', hrun, h'⟩ := ih h₁ hcalls (by rw [length_cons]; omega)
    refine ⟨b', ?_, ?_⟩
    · rw [foldlM_cons, hadd]
      exact hrun
    · rw [reverse_cons, append_assoc]
      exact h'

/-- Fewer than 2³¹ calls with numbers below 2³¹ - 1 go through, and the buffer tells what was
added. -/
theorem refines_addPkts (calls : List (ℤ × K)) (hcalls : ∀ c ∈ calls, 0 ≤ c.1 ∧ c.1 < 2 ^ 31 - 1)
    (hlen : (calls.length : ℤ) < 2 ^ 31) : ∃ b, addPkts calls = some b ∧ Refines b calls.reverse := by
  obtain ⟨b, hrun, hb⟩ := exists_foldlM calls holds_construct hcalls (by simpa using hlen)
  exact ⟨b, hrun, (append_nil calls.reverse ▸ hb).refines⟩

/-- A gap of five that is split, shortened and closed at the front. -/
theorem refines_addPkts_split : ∃ b, addPkts [(6, (1 : ℤ)), (2, 2), (4, 3), (2, 4), (0, 5), (1, 6)] =
    some b ∧ Refines b [(1, 6), (0, 5), (2, 4), (4, 3), (2, 2), (6, 1)] :=
  refines_addPkts [(6, 1), (2, 2), (4, 3), (2, 4), (0, 5), (1, 6)] (by decide) (by decide)

/-- The largest `int` has no successor. -/
theorem addPkts_max : addPkts [(2 ^ 31 - 1, (0 : ℤ))] = none := by
  decide

end RcvBuffer

end Ns2
