import Mathlib.Data.Int.ConditionallyCompleteOrder
import Mathlib.Data.Int.Interval
import Mathlib.Order.ConditionallyCompleteLattice.Basic

/-! Sorted lists of half-open ranges that do not touch each other. -/

namespace Ns2.Ranges

open List

/-- The numbers in some range of the list. -/
noncomputable def cover : List (ℤ × ℤ) → Finset ℤ
  | [] => ∅
  | b :: l => Finset.Ico b.1 b.2 ∪ cover l

def size (l : List (ℤ × ℤ)) : ℤ := (l.map fun b => b.2 - b.1).sum

structure Apart (l : List (ℤ × ℤ)) : Prop where
  nonempty : ∀ b ∈ l, b.1 < b.2
  sorted : l.Pairwise fun a b => a.2 < b.1

variable {l l₁ l₂ : List (ℤ × ℤ)} {b : ℤ × ℤ} {x lo mid mid' hi : ℤ}

@[simp] theorem cover_nil : cover [] = ∅ := rfl

@[simp] theorem cover_cons : cover (b :: l) = Finset.Ico b.1 b.2 ∪ cover l := rfl

@[simp] theorem cover_append : cover (l₁ ++ l₂) = cover l₁ ∪ cover l₂ := by
  induction l₁ with
  | nil => simp
  | cons a l₁ ih => rw [cons_append, cover_cons, ih, cover_cons, Finset.union_assoc]

theorem mem_cover : x ∈ cover l ↔ ∃ b ∈ l, b.1 ≤ x ∧ x < b.2 := by
  induction l with
  | nil => simp
  | cons a l ih => simp [ih]

theorem cover_mono (h : l₁ ⊆ l₂) : cover l₁ ⊆ cover l₂ := by
  intro x hx
  obtain ⟨b, hb, hbx⟩ := mem_cover.1 hx
  exact mem_cover.2 ⟨b, h hb, hbx⟩

@[simp] theorem size_nil : size [] = 0 := rfl

@[simp] theorem size_cons : size (b :: l) = b.2 - b.1 + size l := by simp [size]

@[simp] theorem size_append : size (l₁ ++ l₂) = size l₁ + size l₂ := by simp [size]

theorem apart_nil : Apart [] := ⟨by simp, Pairwise.nil⟩

theorem apart_cons : Apart (b :: l) ↔ b.1 < b.2 ∧ Apart l ∧ ∀ c ∈ l, b.2 < c.1 := by
  constructor
  · intro h
    obtain ⟨hb, hl⟩ := pairwise_cons.1 h.sorted
    exact ⟨h.nonempty b mem_cons_self,
      ⟨fun c hc => h.nonempty c (mem_cons_of_mem b hc), hl⟩, hb⟩
  · rintro ⟨hb, hl, hlt⟩
    exact ⟨forall_mem_cons.2 ⟨hb, hl.nonempty⟩, pairwise_cons.2 ⟨hlt, hl.sorted⟩⟩

theorem apart_append :
    Apart (l₁ ++ l₂) ↔ Apart l₁ ∧ Apart l₂ ∧ ∀ a ∈ l₁, ∀ b ∈ l₂, a.2 < b.1 := by
  constructor
  · intro h
    obtain ⟨h₁, h₂, hlt⟩ := pairwise_append.1 h.sorted
    exact ⟨⟨fun b hb => h.nonempty b (mem_append_left _ hb), h₁⟩,
      ⟨fun b hb => h.nonempty b (mem_append_right _ hb), h₂⟩, hlt⟩
  · rintro ⟨h₁, h₂, hlt⟩
    refine ⟨fun b hb => ?_, pairwise_append.2 ⟨h₁.sorted, h₂.sorted, hlt⟩⟩
    rcases mem_append.1 hb with hb | hb
    · exact h₁.nonempty b hb
    · exact h₂.nonempty b hb

theorem Apart.sublist {l' : List (ℤ × ℤ)} (h : Apart l) (hs : l'.Sublist l) : Apart l' :=
  ⟨fun b hb => h.nonempty b (hs.subset hb), h.sorted.sublist hs⟩

theorem Apart.nodup (h : Apart l) : l.Nodup := by
  refine nodup_iff_pairwise_ne.2 (h.sorted.imp_of_mem ?_)
  rintro a b ha - hlt rfl
  exact lt_asymm hlt (h.nonempty a ha)

theorem Apart.right_not_mem (h : Apart l) (hb : b ∈ l) : b.2 ∉ cover l := by
  intro hmem
  obtain ⟨c, hc, hle, hlt⟩ := mem_cover.1 hmem
  obtain ⟨l₁, l₂, rfl⟩ := append_of_mem hb
  obtain ⟨-, h₂, hbefore⟩ := apart_append.1 h
  obtain ⟨hb', -, hbehind⟩ := apart_cons.1 h₂
  rcases mem_append.1 hc with hc | hc
  · have := hbefore c hc b mem_cons_self
    omega
  · rcases mem_cons.1 hc with rfl | hc
    · exact lt_irrefl _ hlt
    · have := hbehind c hc
      omega

theorem Apart.card_cover (h : Apart l) : ((cover l).card : ℤ) = size l := by
  induction l with
  | nil => rfl
  | cons b l ih =>
    obtain ⟨hb, hl, hlt⟩ := apart_cons.1 h
    have hdisj : Disjoint (Finset.Ico b.1 b.2) (cover l) := by
      rw [Finset.disjoint_left]
      intro x hx hmem
      obtain ⟨c, hc, hle, -⟩ := mem_cover.1 hmem
      have := hlt c hc
      have := (Finset.mem_Ico.1 hx).2
      omega
    rw [cover_cons, Finset.card_union_of_disjoint hdisj, Int.card_Ico, Nat.cast_add, ih hl,
      Int.toNat_of_nonneg (by omega), size_cons]

theorem Apart.insert (h : Apart (l₁ ++ l₂)) (hb : b.1 < b.2) (h₁ : ∀ a ∈ l₁, a.2 < b.1)
    (h₂ : ∀ c ∈ l₂, b.2 < c.1) : Apart (l₁ ++ b :: l₂) := by
  obtain ⟨ha₁, ha₂, hlt⟩ := apart_append.1 h
  refine apart_append.2 ⟨ha₁, apart_cons.2 ⟨hb, ha₂, h₂⟩, fun a ha => ?_⟩
  exact forall_mem_cons.2 ⟨h₁ a ha, hlt a ha⟩

theorem Apart.extend (h : Apart (l₁ ++ b :: l₂)) (hlo : lo ≤ b.1) (hhi : b.2 ≤ hi)
    (h₁ : ∀ a ∈ l₁, a.2 < lo) (h₂ : ∀ c ∈ l₂, hi < c.1) : Apart (l₁ ++ (lo, hi) :: l₂) := by
  have hb := h.nonempty b (by simp)
  exact (h.sublist ((sublist_cons_self b l₂).append_left l₁)).insert (by simp; omega) h₁ h₂

theorem cover_extend_right (hlo : b.1 ≤ b.2) (hhi : b.2 ≤ hi) :
    cover (l₁ ++ (b.1, hi) :: l₂) = cover (l₁ ++ b :: l₂) ∪ Finset.Ico b.2 hi := by
  rw [cover_append, cover_append, cover_cons, cover_cons, ← Finset.Ico_union_Ico_eq_Ico hlo hhi,
    Finset.union_right_comm (Finset.Ico b.1 b.2), Finset.union_assoc (cover l₁)]

theorem cover_extend_left (hlo : lo ≤ b.1) (hhi : b.1 ≤ b.2) :
    cover (l₁ ++ (lo, b.2) :: l₂) = cover (l₁ ++ b :: l₂) ∪ Finset.Ico lo b.1 := by
  rw [cover_append, cover_append, cover_cons, cover_cons, ← Finset.Ico_union_Ico_eq_Ico hlo hhi,
    Finset.union_comm (Finset.Ico lo b.1) (Finset.Ico b.1 b.2),
    Finset.union_right_comm (Finset.Ico b.1 b.2), Finset.union_assoc (cover l₁)]

theorem Apart.bridge {c : ℤ × ℤ} (h : Apart (l₁ ++ b :: c :: l₂)) :
    Apart (l₁ ++ (b.1, c.2) :: l₂) := by
  obtain ⟨-, h₂, hlt⟩ := apart_append.1 h
  obtain ⟨hb, h₂, hbc⟩ := apart_cons.1 h₂
  obtain ⟨hc, -, hlt'⟩ := apart_cons.1 h₂
  have := hbc c mem_cons_self
  have hsub : Apart (l₁ ++ b :: l₂) :=
    h.sublist (((sublist_cons_self c l₂).cons_cons b).append_left l₁)
  exact hsub.extend le_rfl (by omega) (fun a ha => hlt a ha _ mem_cons_self) hlt'

theorem cover_bridge {c : ℤ × ℤ} (hb : b.1 ≤ b.2) (hbc : b.2 ≤ c.1) (hc : c.1 ≤ c.2) :
    cover (l₁ ++ (b.1, c.2) :: l₂) = cover (l₁ ++ b :: c :: l₂) ∪ Finset.Ico b.2 c.1 := by
  -- the second range first, then the hole
  have hjoin : cover (l₁ ++ (b.1, c.2) :: l₂) =
      cover (l₁ ++ (b.1, c.1) :: l₂) ∪ Finset.Ico c.1 c.2 :=
    cover_extend_right (b := (b.1, c.1)) (hb.trans hbc) hc
  have hhole : cover (l₁ ++ (b.1, c.1) :: l₂) = cover (l₁ ++ b :: l₂) ∪ Finset.Ico b.2 c.1 :=
    cover_extend_right hb hbc
  rw [hjoin, hhole, Finset.union_right_comm, cover_append, cover_append, cover_cons, cover_cons,
    cover_cons]
  simp only [Finset.union_assoc, Finset.union_comm (cover l₂) (Finset.Ico c.1 c.2)]

section

variable {P : Type*} {f : P → ℤ × ℤ} {l : List P}

theorem Apart.lt_of_last (h : Apart (l.map f)) (hle : ∀ p ∈ l, (f p).2 ≤ x)
    (hlast : ∀ p ∈ l.getLast?, (f p).2 ≠ x) : ∀ p ∈ l, (f p).2 < x := by
  intro p hp
  rcases eq_nil_or_concat' l with rfl | ⟨l, a, rfl⟩
  · cases hp
  · have ha : a ∈ l ++ [a] := by simp
    have hne := hlast a (by simp)
    rw [map_append] at h
    obtain ⟨-, hnonempty, hlt⟩ := apart_append.1 h
    have := hnonempty.nonempty (f a) (by simp)
    have := hle a ha
    rcases mem_append.1 hp with hp | hp
    · have := hlt (f p) (mem_map_of_mem hp) (f a) (by simp)
      omega
    · obtain rfl := mem_singleton.1 hp
      omega

theorem Apart.lt_of_head (h : Apart (l.map f)) (hle : ∀ p ∈ l, x ≤ (f p).1)
    (hhead : ∀ p ∈ l.head?, (f p).1 ≠ x) : ∀ p ∈ l, x < (f p).1 := by
  intro p hp
  cases l with
  | nil => cases hp
  | cons a l =>
    have hne := hhead a rfl
    obtain ⟨hlt, -, hsorted⟩ := apart_cons.1 (map_cons ▸ h)
    have := hle a mem_cons_self
    rcases mem_cons.1 hp with rfl | hp
    · omega
    · have := hsorted (f p) (mem_map_of_mem hp)
      omega

theorem mem_cover_map : x ∈ cover (l.map f) ↔ ∃ p ∈ l, (f p).1 ≤ x ∧ x < (f p).2 := by
  rw [mem_cover]
  constructor
  · rintro ⟨b, hb, hx⟩
    obtain ⟨p, hp, rfl⟩ := mem_map.1 hb
    exact ⟨p, hp, hx⟩
  · rintro ⟨p, hp, hx⟩
    exact ⟨f p, mem_map_of_mem hp, hx⟩

theorem filter_cover_of_le (h : ∀ p ∈ l, (f p).2 ≤ x) :
    (cover (l.map f)).filter (fun y => x ≤ y) = ∅ := by
  rw [Finset.filter_eq_empty_iff]
  intro y hy
  obtain ⟨p, hp, -, hlt⟩ := mem_cover_map.1 hy
  have := h p hp
  omega

theorem filter_cover_of_ge (h : ∀ p ∈ l, x ≤ (f p).1) :
    (cover (l.map f)).filter (fun y => x ≤ y) = cover (l.map f) := by
  rw [Finset.filter_eq_self]
  intro y hy
  obtain ⟨p, hp, hle, -⟩ := mem_cover_map.1 hy
  exact (h p hp).trans hle

theorem size_map_filter (p : P → Bool) :
    size ((l.filter p).map f) + size ((l.filter fun a => !p a).map f) = size (l.map f) := by
  induction l with
  | nil => rfl
  | cons a l ih =>
    cases hp : p a with
    | false => simp [hp, ← ih]; omega
    | true => simp [hp, ← ih]; omega

theorem Apart.split (h : Apart (l.map f)) (lo hi : ℤ) :
    ∃ below across above, l = below ++ (across ++ above) ∧ (∀ p ∈ below, (f p).2 ≤ lo) ∧
      (∀ p ∈ across, lo < (f p).2 ∧ (f p).1 < hi) ∧ ∀ p ∈ above, lo < (f p).2 ∧ hi ≤ (f p).1 := by
  induction l with
  | nil => exact ⟨[], [], [], rfl, by simp⟩
  | cons a l ih =>
    obtain ⟨ha, hl, hlt⟩ := apart_cons.1 (map_cons ▸ h)
    have hle : ∀ p ∈ l, (f a).2 < (f p).1 ∧ (f p).1 < (f p).2 := fun p hp =>
      ⟨hlt _ (mem_map_of_mem hp), hl.nonempty _ (mem_map_of_mem hp)⟩
    by_cases hbelow : (f a).2 ≤ lo
    · obtain ⟨below, across, above, rfl, h₁, h₂, h₃⟩ := ih hl
      exact ⟨a :: below, across, above, rfl, forall_mem_cons.2 ⟨hbelow, h₁⟩, h₂, h₃⟩
    · by_cases habove : hi ≤ (f a).1
      · refine ⟨[], [], a :: l, rfl, by simp, by simp, ?_⟩
        refine forall_mem_cons.2 ⟨⟨by omega, habove⟩, fun p hp => ?_⟩
        have := hle p hp
        omega
      · obtain ⟨below, across, above, rfl, h₁, h₂, h₃⟩ := ih hl
        have hnil : below = [] := by
          refine eq_nil_iff_forall_not_mem.2 fun p hp => ?_
          have := h₁ p hp
          have := hle p (mem_append_left _ hp)
          omega
        subst hnil
        exact ⟨[], a :: across, above, rfl, by simp,
          forall_mem_cons.2 ⟨by omega, h₂⟩, h₃⟩

end

end Ns2.Ranges

namespace Ns2

/-- The numbers from `b.1` up to `b.2` are in the set, the ones next to them are not. -/
structure MaximalRun (R : Set ℕ) (b : ℕ × ℕ) : Prop where
  nonempty : b.1 < b.2
  subset : Set.Ico b.1 b.2 ⊆ R
  left : ∀ i, i + 1 = b.1 → i ∉ R
  right : b.2 ∉ R

namespace MaximalRun

variable {R : Set ℕ} {b c : ℕ × ℕ} {seq : ℕ}

theorem mem (h : MaximalRun R b) {i : ℕ} (hl : b.1 ≤ i) (hr : i < b.2) : i ∈ R := h.subset ⟨hl, hr⟩

theorem covers {S : Set ℕ} (hc : MaximalRun R c) (hb : MaximalRun S b) (hS : S ⊆ R) {i : ℕ}
    (hci : i ∈ Set.Ico c.1 c.2) (hbi : i ∈ Set.Icc b.1 b.2) : c.1 ≤ b.1 ∧ b.2 ≤ c.2 := by
  obtain ⟨hc₁, hc₂⟩ := hci
  obtain ⟨hb₁, hb₂⟩ := hbi
  constructor
  · by_contra hlt
    have hmem : c.1 - 1 ∈ S := hb.mem (by omega) (by omega)
    exact hc.left (c.1 - 1) (by omega) (hS hmem)
  · by_contra hlt
    exact hc.right (hS (hb.mem (by omega) (by omega)))

theorem eq_of_mem (hb : MaximalRun R b) (hc : MaximalRun R c) {i : ℕ} (hbi : i ∈ Set.Ico b.1 b.2)
    (hci : i ∈ Set.Ico c.1 c.2) : b = c := by
  obtain ⟨h₁, h₂⟩ := hc.covers hb subset_rfl hci (Set.Ico_subset_Icc_self hbi)
  obtain ⟨h₃, h₄⟩ := hb.covers hc subset_rfl hbi (Set.Ico_subset_Icc_self hci)
  exact Prod.ext (le_antisymm h₃ h₁) (le_antisymm h₂ h₄)

theorem disjoint (hb : MaximalRun R b) (hc : MaximalRun R c) (hne : b ≠ c) :
    b.2 ≤ c.1 ∨ c.2 ≤ b.1 := by
  by_contra hmeet
  have := hb.nonempty
  have := hc.nonempty
  refine hne (hb.eq_of_mem hc (i := max b.1 c.1) ⟨?_, ?_⟩ ⟨?_, ?_⟩)
  all_goals omega

theorem insert (hb : MaximalRun R b) (hl : seq + 1 ≠ b.1) (hr : seq ≠ b.2) :
    MaximalRun (insert seq R) b := by
  refine ⟨hb.nonempty, hb.subset.trans (Set.subset_insert _ _), fun i hi hmem => ?_, fun hmem => ?_⟩
  · rcases hmem with rfl | hmem
    · exact hl hi
    · exact hb.left i hi hmem
  · rcases hmem with heq | hmem
    · exact hr heq.symm
    · exact hb.right hmem

theorem insert_or_covered (hb : MaximalRun R b) (hc : MaximalRun (Insert.insert seq R) c)
    (hseq : seq ∈ Set.Ico c.1 c.2) :
    MaximalRun (Insert.insert seq R) b ∨ c.1 ≤ b.1 ∧ b.2 ≤ c.2 := by
  by_cases hr : seq = b.2
  · refine Or.inr (hc.covers hb (Set.subset_insert _ _) hseq ?_)
    have := hb.nonempty
    exact ⟨by omega, hr.le⟩
  · by_cases hl : seq + 1 = b.1
    · right
      have hlt := hb.nonempty
      have hmem : b.1 ∈ Insert.insert seq R := Set.mem_insert_of_mem _ (hb.mem le_rfl hlt)
      have hnext : b.1 ∈ Set.Ico c.1 c.2 := by
        have := hseq.1
        refine ⟨by omega, ?_⟩
        by_contra hge
        have h₁ := hseq.2
        have heq : c.2 = b.1 := by omega
        exact hc.right (heq ▸ hmem)
      exact hc.covers hb (Set.subset_insert _ _) hnext ⟨le_rfl, hlt.le⟩
    · exact Or.inl (hb.insert hl hr)

end MaximalRun

end Ns2
