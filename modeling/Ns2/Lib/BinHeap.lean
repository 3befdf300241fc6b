import Mathlib.Data.List.Sort

/-! Binary heaps in the first `n` cells of an array: moving a cell up, down or to
the root keeps the contents, and keeps the order where it was broken at one cell
only. -/

namespace Ns2

namespace BinHeap

open List Function

variable {α κ : Type*}
variable {n i : ℕ}

def parent (i : ℕ) : ℕ := (i - 1) / 2

def left (i : ℕ) : ℕ := i * 2 + 1

def right (i : ℕ) : ℕ := (i + 1) * 2

/-- The first `n` cells. -/
def contents (a : ℕ → α) (n : ℕ) : List α := (range n).map a

def swap (a : ℕ → α) (i j : ℕ) : ℕ → α :=
  Function.update (Function.update a i (a j)) j (a i)

/-- Cell `i` is a hole for `e`; larger ancestors move down into it. -/
def siftUp (lt : α → α → Prop) [DecidableRel lt] (e : α) (a : ℕ → α) (i : ℕ) : ℕ → α :=
  if 0 < i ∧ lt e (a (parent i)) then
    siftUp lt e (Function.update a i (a (parent i))) (parent i)
  else Function.update a i e
termination_by i
decreasing_by unfold parent; omega

/-- The child `siftDown` compares with; the right one unless the left is smaller. -/
def child (lt : α → α → Prop) [DecidableRel lt] (n : ℕ) (a : ℕ → α) (i : ℕ) : ℕ :=
  if right i < n then (if lt (a (left i)) (a (right i)) then left i else right i)
  else if left i < n then left i else i

theorem child_eq (lt : α → α → Prop) [DecidableRel lt] (n : ℕ) (a : ℕ → α) (i : ℕ) :
    child lt n a i = i ∧ n ≤ left i ∨
      parent (child lt n a i) = i ∧ i < child lt n a i ∧ child lt n a i < n := by
  unfold child parent left right
  split_ifs <;> omega

def siftDown (lt : α → α → Prop) [DecidableRel lt] (n : ℕ) (a : ℕ → α) (i : ℕ) : ℕ → α :=
  if _h : i < n ∧ child lt n a i ≠ i ∧ lt (a (child lt n a i)) (a i) then
    siftDown lt n (swap a i (child lt n a i)) (child lt n a i)
  else a
termination_by n - i
decreasing_by
  rcases child_eq lt n a i with hc | hc
  · exact absurd hc.1 _h.2.1
  · omega

/-- Cell `i` moves to the root, without comparisons. -/
def toRoot (a : ℕ → α) (i : ℕ) : ℕ → α :=
  if 0 < i then toRoot (swap a i (parent i)) (parent i) else a
termination_by i
decreasing_by unfold parent; omega

/-- The root goes, the last cell takes its place and moves down. -/
def extract (lt : α → α → Prop) [DecidableRel lt] (n : ℕ) (a : ℕ → α) : ℕ → α :=
  siftDown lt n (Function.update a 0 (a n)) 0

theorem contents_congr {a b : ℕ → α} (h : ∀ i < n, a i = b i) : contents a n = contents b n :=
  map_congr_left fun i hi => h i (mem_range.1 hi)

theorem contents_succ (a : ℕ → α) (n : ℕ) : contents a (n + 1) = contents a n ++ [a n] := by
  unfold contents
  rw [range_succ, map_append]
  rfl

theorem mem_contents {a : ℕ → α} {x : α} : x ∈ contents a n ↔ ∃ i < n, a i = x := by
  simp [contents]

theorem swap_eq (a : ℕ → α) (i j : ℕ) : swap a i j = a ∘ Equiv.swap i j := by
  funext k
  unfold swap
  rcases eq_or_ne k j with rfl | hj
  · rw [update_self, comp_apply, Equiv.swap_apply_right]
  rw [update_of_ne hj]
  rcases eq_or_ne k i with rfl | hi
  · rw [update_self, comp_apply, Equiv.swap_apply_left]
  · rw [update_of_ne hi, comp_apply, Equiv.swap_apply_of_ne_of_ne hi hj]

theorem contents_swap (a : ℕ → α) {j : ℕ} (hi : i < n) (hj : j < n) :
    (contents (swap a i j) n).Perm (contents a n) := by
  unfold contents
  rw [swap_eq, ← map_map]
  apply Perm.map
  have hmem : ∀ k, Equiv.swap i j k < n ↔ k < n := by
    intro k
    rcases eq_or_ne k i with rfl | hki
    · rw [Equiv.swap_apply_left]; omega
    rcases eq_or_ne k j with rfl | hkj
    · rw [Equiv.swap_apply_right]; omega
    · rw [Equiv.swap_apply_of_ne_of_ne hki hkj]
  rw [perm_ext_iff_of_nodup (nodup_range.map (Equiv.injective _)) nodup_range]
  intro k
  rw [mem_map, mem_range]
  constructor
  · rintro ⟨x, hx, rfl⟩
    exact (hmem x).2 (mem_range.1 hx)
  · exact fun hk => ⟨Equiv.swap i j k, mem_range.2 ((hmem k).2 hk), Equiv.swap_apply_self i j k⟩

theorem parent_lt (h : 0 < i) : parent i < i := by
  unfold parent; omega

/-- Filling the hole before or after the ancestor has moved into it differs by a swap. -/
theorem update_parent (a : ℕ → α) (e : α) (h : 0 < i) :
    Function.update (Function.update a i (a (parent i))) (parent i) e =
      swap (Function.update a i e) i (parent i) := by
  have hne : parent i ≠ i := (parent_lt h).ne
  unfold swap
  rw [update_self, update_of_ne hne, update_idem]

theorem contents_siftUp (lt : α → α → Prop) [DecidableRel lt] (e : α) (a : ℕ → α) (hi : i < n) :
    (contents (siftUp lt e a i) n).Perm (contents (Function.update a i e) n) := by
  induction a, i using siftUp.induct lt e with
  | case1 a i h ih =>
    have hp := parent_lt h.1
    rw [siftUp, if_pos h]
    refine (ih (hp.trans hi)).trans ?_
    rw [update_parent a e h.1]
    exact contents_swap _ hi (hp.trans hi)
  | case2 a i h =>
    rw [siftUp, if_neg h]

theorem contents_siftDown (lt : α → α → Prop) [DecidableRel lt] (a : ℕ → α) (n i : ℕ) :
    (contents (siftDown lt n a i) n).Perm (contents a n) := by
  induction a, i using siftDown.induct lt n with
  | case1 a i h ih =>
    rw [siftDown, dif_pos h]
    refine ih.trans (contents_swap a h.1 ?_)
    rcases child_eq lt n a i with hc | hc
    · exact absurd hc.1 h.2.1
    · exact hc.2.2
  | case2 a i h =>
    rw [siftDown, dif_neg h]

theorem contents_toRoot (a : ℕ → α) (hi : i < n) :
    (contents (toRoot a i) n).Perm (contents a n) := by
  induction a, i using toRoot.induct with
  | case1 a i h ih =>
    rw [toRoot, if_pos h]
    have hp := (parent_lt h).trans hi
    exact (ih hp).trans (contents_swap a hi hp)
  | case2 a i h =>
    rw [toRoot, if_neg h]

theorem contents_extract (lt : α → α → Prop) [DecidableRel lt] (a : ℕ → α) (n : ℕ) :
    (contents a (n + 1)).Perm (a 0 :: contents (extract lt n a) n) := by
  have hcells : contents (swap a 0 n) n = contents (Function.update a 0 (a n)) n := by
    refine contents_congr fun i hi => ?_
    rw [swap, update_of_ne hi.ne]
  have hlast : swap a 0 n n = a 0 := by rw [swap, update_self]
  calc (contents a (n + 1)).Perm (contents (swap a 0 n) (n + 1)) :=
        (contents_swap a n.succ_pos n.lt_succ_self).symm
    _ = contents (Function.update a 0 (a n)) n ++ [a 0] := by rw [contents_succ, hcells, hlast]
    Perm _ (a 0 :: contents (Function.update a 0 (a n)) n) := perm_append_singleton _ _
    Perm _ (a 0 :: contents (extract lt n a) n) :=
        (contents_siftDown lt _ n 0).symm.cons _

theorem toRoot_zero (a : ℕ → α) (i : ℕ) : toRoot a i 0 = a i := by
  induction a, i using toRoot.induct with
  | case1 a i h ih =>
    rw [toRoot, if_pos h, ih, swap, update_self]
  | case2 a i h =>
    rw [toRoot, if_neg h, Nat.eq_zero_of_not_pos h]

section Order

variable [LinearOrder κ] (key : α → κ)
variable {n i : ℕ} {a : ℕ → α}

def Ordered (n : ℕ) (a : ℕ → α) : Prop :=
  ∀ j, 0 < j → j < n → key (a (parent j)) ≤ key (a j)

/-- In order but for the pairs of cell `i`, whose children may as well hang from
its parent. -/
structure OrderedExcept (n : ℕ) (a : ℕ → α) (i : ℕ) : Prop where
  off : ∀ j, 0 < j → j < n → j ≠ i → parent j ≠ i → key (a (parent j)) ≤ key (a j)
  grand : 0 < i → ∀ j, 0 < j → j < n → parent j = i → key (a (parent i)) ≤ key (a j)

variable {key}

theorem Ordered.except (h : Ordered key n a) (i : ℕ) (hi : i < n) : OrderedExcept key n a i where
  off j hj hjn _ _ := h j hj hjn
  grand hi0 j hj hjn hp := (h i hi0 hi).trans (hp ▸ h j hj hjn)

theorem Ordered.congr {b : ℕ → α} (h : Ordered key n a) (hab : ∀ i < n, a i = b i) :
    Ordered key n b := by
  intro j hj hjn
  rw [← hab j hjn, ← hab (parent j) ((parent_lt hj).trans hjn)]
  exact h j hj hjn

theorem Ordered.root_le (h : Ordered key n a) {j : ℕ} (hj : j < n) : key (a 0) ≤ key (a j) := by
  induction j using Nat.strongRecOn with
  | ind j ih =>
    rcases Nat.eq_zero_or_pos j with rfl | h0
    · exact le_rfl
    · have hp := parent_lt h0
      exact (ih (parent j) hp (hp.trans hj)).trans (h j h0 hj)

theorem OrderedExcept.up (h : OrderedExcept key n a i) (h0 : 0 < i) (hi : i < n) :
    OrderedExcept key n (swap a i (parent i)) (parent i) := by
  have hp := parent_lt h0
  have hat : ∀ j, j ≠ i → j ≠ parent i → swap a i (parent i) j = a j := by
    intro j hj hjp
    rw [swap, update_of_ne hjp, update_of_ne hj]
  have hati : swap a i (parent i) i = a (parent i) := by
    rw [swap, update_of_ne hp.ne', update_self]
  -- the parent of the parent lies above every cell that moved
  have hup : 0 < parent i → key (a (parent (parent i))) ≤ key (a (parent i)) := by
    intro hp0
    have := parent_lt hp0
    exact h.off _ hp0 (hp.trans hi) hp.ne (by omega)
  constructor
  · intro j hj hjn hjp hpj
    by_cases hji : j = i
    · exact absurd (congrArg parent hji) hpj
    rw [hat j hji hjp]
    by_cases hpi : parent j = i
    · rw [hpi, hati]
      exact h.grand h0 j hj hjn hpi
    · rw [hat _ hpi hpj]
      exact h.off j hj hjn hji hpi
  · intro hp0 j hj hjn hpj
    have := parent_lt hp0
    have hjp := parent_lt hj
    rw [hat _ (by omega) (by omega)]
    by_cases hji : j = i
    · rw [hji, hati]
      exact hup hp0
    · rw [hat j hji (by omega)]
      exact (hup hp0).trans (hpj ▸ h.off j hj hjn hji (by omega))

theorem OrderedExcept.toRoot (h : OrderedExcept key n a i) (hi : i < n) :
    OrderedExcept key n (toRoot a i) 0 := by
  induction a, i using BinHeap.toRoot.induct with
  | case1 a i h0 ih =>
    rw [BinHeap.toRoot, if_pos h0]
    exact ih (h.up h0 hi) ((parent_lt h0).trans hi)
  | case2 a i h0 =>
    rw [BinHeap.toRoot, if_neg h0, ← Nat.eq_zero_of_not_pos h0]
    exact h

variable {lt : α → α → Prop} [DecidableRel lt] (hlt : ∀ x y, lt x y ↔ key x < key y)

include hlt

theorem ordered_siftUp {e : α} (hi : i < n) (h : OrderedExcept key n (Function.update a i e) i)
    (hbelow : ∀ j, 0 < j → j < n → parent j = i → key e ≤ key (a j)) :
    Ordered key n (siftUp lt e a i) := by
  induction a, i using siftUp.induct lt e with
  | case1 a i hc ih =>
    have hp := parent_lt hc.1
    rw [siftUp, if_pos hc]
    have hle := (hlt _ _).1 hc.2
    refine ih (hp.trans hi) ?_ ?_
    · rw [update_parent a e hc.1]
      exact h.up hc.1 hi
    · intro j hj hjn hpj
      have hjp := parent_lt hj
      by_cases hji : j = i
      · rw [hji, update_self]
        exact hle.le
      · rw [update_of_ne hji]
        have hoff := h.off j hj hjn hji (by omega)
        rw [update_of_ne (by omega), update_of_ne hji, hpj] at hoff
        exact hle.le.trans hoff
  | case2 a i hc =>
    rw [siftUp, if_neg hc]
    intro j hj hjn
    have hjp := parent_lt hj
    by_cases hji : j = i
    · subst hji
      rw [update_self, update_of_ne hjp.ne]
      exact not_lt.1 fun hk => hc ⟨hj, (hlt _ _).2 hk⟩
    by_cases hpi : parent j = i
    · rw [hpi, update_self, update_of_ne hji]
      exact hbelow j hj hjn hpi
    · exact h.off j hj hjn hji hpi

theorem child_le {j : ℕ} (hj : 0 < j) (hjn : j < n) (hp : parent j = i) :
    key (a (child lt n a i)) ≤ key (a j) := by
  have hcase : j = left i ∨ j = right i := by
    unfold parent left right at *
    omega
  unfold child
  split_ifs with h1 h2 h3
  · rcases hcase with rfl | rfl
    · exact le_rfl
    · exact ((hlt _ _).1 h2).le
  · rcases hcase with rfl | rfl
    · exact not_lt.1 (mt (hlt _ _).2 h2)
    · exact le_rfl
  · rcases hcase with rfl | rfl
    · exact le_rfl
    · exact absurd hjn h1
  · omega

theorem ordered_siftDown (h : OrderedExcept key n a i)
    (habove : 0 < i → key (a (parent i)) ≤ key (a i)) : Ordered key n (siftDown lt n a i) := by
  induction a, i using siftDown.induct lt n with
  | case1 a i hc ih =>
    rw [siftDown, dif_pos hc]
    obtain ⟨hpc, hic, hcn⟩ : parent (child lt n a i) = i ∧ i < child lt n a i ∧ child lt n a i < n := by
      rcases child_eq lt n a i with he | he
      · exact absurd he.1 hc.2.1
      · exact he
    have hmin : ∀ j, 0 < j → j < n → parent j = i → key (a (child lt n a i)) ≤ key (a j) :=
      fun j hj hjn hp => child_le hlt hj hjn hp
    have hle := ((hlt _ _).1 hc.2.2).le
    set c := child lt n a i
    have hati : swap a i c i = a c := by
      rw [swap, update_of_ne hic.ne, update_self]
    have hatc : swap a i c c = a i := by
      rw [swap, update_self]
    have hat : ∀ j, j ≠ i → j ≠ c → swap a i c j = a j := by
      intro j hj hjc
      rw [swap, update_of_ne hjc, update_of_ne hj]
    refine ih ⟨?_, ?_⟩ ?_
    · intro j hj hjn hjc hpj
      have hjp := parent_lt hj
      by_cases hji : j = i
      · subst hji
        rw [hati, hat (parent j) hjp.ne (hjp.trans hic).ne]
        exact h.grand hj c (hj.trans hic) hcn hpc
      rw [hat j hji hjc]
      by_cases hpi : parent j = i
      · rw [hpi, hati]
        exact hmin j hj hjn hpi
      · rw [hat _ hpi hpj]
        exact h.off j hj hjn hji hpi
    · intro _ j hj hjn hpj
      have hjp := parent_lt hj
      rw [hpj] at hjp
      have hoff := h.off j hj hjn (hic.trans hjp).ne' (by rw [hpj]; exact hic.ne')
      rw [hpc, hati, hat j (hic.trans hjp).ne' hjp.ne']
      rwa [hpj] at hoff
    · intro _
      rw [hpc, hati, hatc]
      exact hle
  | case2 a i hc =>
    rw [siftDown, dif_neg hc]
    intro j hj hjn
    have hjp := parent_lt hj
    by_cases hji : j = i
    · subst hji
      exact habove hj
    by_cases hpi : parent j = i
    · rw [hpi]
      have hle := child_le hlt (a := a) hj hjn hpi
      refine le_trans (not_lt.1 fun hk => ?_) hle
      refine hc ⟨by omega, fun hci => ?_, (hlt _ _).2 hk⟩
      rw [hci] at hk
      exact hk.false
    · exact h.off j hj hjn hji hpi

theorem ordered_extract (h : OrderedExcept key (n + 1) a 0) : Ordered key n (extract lt n a) := by
  refine ordered_siftDown hlt ⟨fun j hj hjn h0 hp => ?_, fun h0 => absurd h0 (lt_irrefl 0)⟩
    fun h0 => absurd h0 (lt_irrefl 0)
  rw [update_of_ne h0, update_of_ne hp]
  exact h.off j hj (Nat.lt_succ_of_lt hjn) h0 hp

end Order

end BinHeap

end Ns2
