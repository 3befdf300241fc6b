import Mathlib.Algebra.Ring.Nat
import Mathlib.Data.Int.ConditionallyCompleteOrder
import Mathlib.Data.Int.ModEq
import Mathlib.Data.List.Induction
import Mathlib.Data.List.Nodup
import Mathlib.Order.ConditionallyCompleteLattice.Basic

/-! Lists of records that are searched for the first one with a key: an update in place and the
removal of a record, with what they leave at the other keys. Tables addressed through a key
function that is injective only on a window of the keys: circular buffers with an index mask or a
modulus. -/

namespace Ns2

open List Option Function

variable {α κ : Type*} [DecidableEq κ] {key : α → κ} {k k' : κ} {f : α → α} {l : List α} {a b : α}

/-- The first record with the key `k`. -/
def findKey (key : α → κ) (k : κ) (l : List α) : Option α := l.find? fun a => key a = k

/-- `f` at the first record with the key `k`. -/
def updateKey (key : α → κ) (k : κ) (f : α → α) : List α → List α
  | [] => []
  | a :: l => if key a = k then f a :: l else a :: updateKey key k f l

/-- The list without the first record with the key `k`. -/
def eraseKey (key : α → κ) (k : κ) (l : List α) : List α := l.eraseP fun a => key a = k

theorem findKey_cons (key : α → κ) (k : κ) (a : α) (l : List α) :
    findKey key k (a :: l) = if key a = k then some a else findKey key k l := by
  rw [findKey, find?_cons]
  by_cases h : key a = k
  · simp [h]
  · simp [h, findKey]

theorem eraseKey_cons (key : α → κ) (k : κ) (a : α) (l : List α) :
    eraseKey key k (a :: l) = if key a = k then l else a :: eraseKey key k l := by
  rw [eraseKey, eraseP_cons]
  by_cases h : key a = k
  · simp [h]
  · simp [h, eraseKey]

theorem mem_of_findKey (h : findKey key k l = some a) : a ∈ l ∧ key a = k :=
  ⟨mem_of_find?_eq_some h, by simpa using find?_some h⟩

theorem findKey_eq_none : findKey key k l = none ↔ ∀ a ∈ l, key a ≠ k := by
  rw [findKey, find?_eq_none]
  simp

theorem exists_findKey (key : α → κ) (ha : a ∈ l) : ∃ b, findKey key (key a) l = some b := by
  cases h : findKey key (key a) l with
  | none => exact absurd rfl (findKey_eq_none.1 h a ha)
  | some b => exact ⟨b, rfl⟩

theorem findKey_of_mem (hl : (l.map key).Nodup) (ha : a ∈ l) : findKey key (key a) l = some a := by
  induction l with
  | nil => cases ha
  | cons b l ih =>
    obtain ⟨hb, hl⟩ := nodup_cons.1 hl
    rw [findKey_cons]
    rcases mem_cons.1 ha with rfl | ha
    · rw [if_pos rfl]
    · have hne : key b ≠ key a := fun heq => hb (heq ▸ mem_map_of_mem ha)
      rw [if_neg hne, ih hl ha]

theorem findKey_map (hf : ∀ a, key (f a) = key a) :
    findKey key k (l.map f) = (findKey key k l).map f := by
  induction l with
  | nil => rfl
  | cons a l ih =>
    rw [map_cons, findKey_cons, findKey_cons, hf, ih]
    split_ifs <;> rfl

theorem map_updateKey (hf : ∀ a, key a = k → key (f a) = k) :
    (updateKey key k f l).map key = l.map key := by
  induction l with
  | nil => rfl
  | cons a l ih =>
    rw [updateKey]
    split_ifs with ha
    · rw [map_cons, map_cons, hf a ha, ha]
    · rw [map_cons, map_cons, ih]

theorem findKey_updateKey (hf : ∀ a, key a = k → key (f a) = k) :
    findKey key k' (updateKey key k f l) =
      if k' = k then (findKey key k l).map f else findKey key k' l := by
  induction l with
  | nil => simp [updateKey, findKey]
  | cons a l ih =>
    rw [updateKey]
    by_cases ha : key a = k
    · rw [if_pos ha, findKey_cons, hf a ha, findKey_cons, if_pos ha]
      by_cases hk : k' = k
      · rw [if_pos hk.symm, if_pos hk, map_some]
      · rw [if_neg (Ne.symm hk), if_neg hk, findKey_cons, if_neg (ha ▸ Ne.symm hk)]
    · rw [if_neg ha, findKey_cons, ih, findKey_cons (k := k), if_neg ha]
      by_cases hk : k' = k
      · rw [if_pos hk, if_pos hk, if_neg (hk ▸ ha)]
      · rw [if_neg hk, if_neg hk, findKey_cons]

theorem updateKey_congr {g : α → α} (hfg : ∀ a, findKey key k l = some a → f a = g a) :
    updateKey key k f l = updateKey key k g l := by
  induction l with
  | nil => rfl
  | cons a l ih =>
    rw [updateKey, updateKey]
    simp only [findKey_cons] at hfg
    by_cases ha : key a = k
    · rw [if_pos ha, if_pos ha, hfg a (if_pos ha)]
    · rw [if_neg ha, if_neg ha, ih fun b hb => hfg b ((if_neg ha).trans hb)]

theorem updateKey_id (key : α → κ) (k : κ) (l : List α) : updateKey key k (fun a => a) l = l := by
  induction l with
  | nil => rfl
  | cons a l ih => rw [updateKey, ih, ite_self]

theorem map_updateKey_of_eq {β : Type*} {g : α → β} (hg : ∀ a, g (f a) = g a) :
    (updateKey key k f l).map g = l.map g := by
  induction l with
  | nil => rfl
  | cons a l ih =>
    rw [updateKey]
    split_ifs
    · rw [map_cons, map_cons, hg]
    · rw [map_cons, map_cons, ih]

theorem findKey_comp {β : Type*} {g : β → α} {l : List β} :
    findKey key k (l.map g) = (findKey (key ∘ g) k l).map g :=
  find?_map ..

theorem eraseKey_comp {β : Type*} {g : β → α} {l : List β} :
    eraseKey key k (l.map g) = (eraseKey (key ∘ g) k l).map g :=
  eraseP_map ..

theorem sum_updateKey_le {g : α → ℕ} (hf : ∀ a, g (f a) ≤ g a) :
    ((updateKey key k f l).map g).sum ≤ (l.map g).sum := by
  induction l with
  | nil => exact Nat.le_refl _
  | cons a l ih =>
    rw [updateKey]
    split_ifs
    · simpa only [map_cons, sum_cons] using Nat.add_le_add_right (hf a) _
    · simpa only [map_cons, sum_cons] using Nat.add_le_add_left ih _

theorem of_mem_updateKey (hb : b ∈ updateKey key k f l) : b ∈ l ∨ ∃ a ∈ l, key a = k ∧ b = f a := by
  induction l with
  | nil => cases hb
  | cons a l ih =>
    rw [updateKey] at hb
    by_cases hk : key a = k
    · rw [if_pos hk] at hb
      rcases mem_cons.1 hb with rfl | hb
      · exact Or.inr ⟨a, mem_cons_self, hk, rfl⟩
      · exact Or.inl (mem_cons_of_mem a hb)
    · rw [if_neg hk] at hb
      rcases mem_cons.1 hb with rfl | hb
      · exact Or.inl mem_cons_self
      · refine (ih hb).imp (mem_cons_of_mem a) ?_
        rintro ⟨c, hc, heq⟩
        exact ⟨c, mem_cons_of_mem a hc, heq⟩

section

variable (hl : (l.map key).Nodup)
include hl

theorem mem_updateKey :
    b ∈ updateKey key k f l ↔ b ∈ l ∧ key b ≠ k ∨ ∃ a ∈ l, key a = k ∧ b = f a := by
  induction l with
  | nil => simp [updateKey]
  | cons a l ih =>
    obtain ⟨ha, hl⟩ := nodup_cons.1 hl
    rw [updateKey]
    by_cases hk : key a = k
    · have hne : ∀ c ∈ l, key c ≠ k := fun c hc heq => ha (hk ▸ heq ▸ mem_map_of_mem hc)
      rw [if_pos hk, mem_cons]
      constructor
      · rintro (rfl | hb)
        · exact Or.inr ⟨a, mem_cons_self, hk, rfl⟩
        · exact Or.inl ⟨mem_cons_of_mem a hb, hne b hb⟩
      · rintro (⟨hb, hbk⟩ | ⟨c, hc, hck, rfl⟩)
        · exact (mem_cons.1 hb).imp (fun heq => absurd (heq ▸ hk) hbk) id
        · rcases mem_cons.1 hc with rfl | hc
          · exact Or.inl rfl
          · exact absurd hck (hne c hc)
    · rw [if_neg hk, mem_cons, ih hl]
      constructor
      · rintro (rfl | ⟨hb, hbk⟩ | ⟨c, hc, hck, rfl⟩)
        · exact Or.inl ⟨mem_cons_self, hk⟩
        · exact Or.inl ⟨mem_cons_of_mem a hb, hbk⟩
        · exact Or.inr ⟨c, mem_cons_of_mem a hc, hck, rfl⟩
      · rintro (⟨hb, hbk⟩ | ⟨c, hc, hck, rfl⟩)
        · exact (mem_cons.1 hb).imp_right fun hb => Or.inl ⟨hb, hbk⟩
        · rcases mem_cons.1 hc with rfl | hc
          · exact absurd hck hk
          · exact Or.inr (Or.inr ⟨c, hc, hck, rfl⟩)

theorem nodup_eraseKey : ((eraseKey key k l).map key).Nodup :=
  hl.sublist (eraseP_sublist.map key)

theorem mem_eraseKey : b ∈ eraseKey key k l ↔ b ∈ l ∧ key b ≠ k := by
  induction l with
  | nil => simp [eraseKey]
  | cons a l ih =>
    obtain ⟨ha, hl⟩ := nodup_cons.1 hl
    rw [eraseKey_cons]
    by_cases hk : key a = k
    · have hne : ∀ c ∈ l, key c ≠ k := fun c hc heq => ha (hk ▸ heq ▸ mem_map_of_mem hc)
      rw [if_pos hk, mem_cons]
      exact ⟨fun hb => ⟨Or.inr hb, hne b hb⟩, fun ⟨hb, hbk⟩ => hb.elim (fun heq => absurd (heq ▸ hk) hbk) id⟩
    · rw [if_neg hk, mem_cons, ih hl, mem_cons]
      constructor
      · rintro (rfl | ⟨hb, hbk⟩)
        · exact ⟨Or.inl rfl, hk⟩
        · exact ⟨Or.inr hb, hbk⟩
      · exact fun ⟨hb, hbk⟩ => hb.imp_right fun hb => ⟨hb, hbk⟩

theorem findKey_eraseKey :
    findKey key k' (eraseKey key k l) = if k' = k then none else findKey key k' l := by
  by_cases hk : k' = k
  · rw [if_pos hk, findKey_eq_none]
    exact fun a ha => hk ▸ ((mem_eraseKey hl).1 ha).2
  · rw [if_neg hk]
    induction l with
    | nil => rfl
    | cons a l ih =>
      obtain ⟨-, hl⟩ := nodup_cons.1 hl
      rw [eraseKey_cons, findKey_cons]
      by_cases ha : key a = k
      · rw [if_pos ha, if_neg (ha ▸ Ne.symm hk)]
      · rw [if_neg ha, findKey_cons, ih hl]

/-- What is made of the records has their keys, so that one key finds what is made of one record. -/
theorem filter_filterMap_eq_toList {β : Type*} {g : α → Option β} {key' : β → κ}
    (hg : ∀ a b, g a = some b → key' b = key a) :
    (l.filterMap g).filter (fun b => key' b = k) = ((findKey key k l).bind g).toList := by
  induction l with
  | nil => rfl
  | cons a l ih =>
    obtain ⟨ha, hl⟩ := nodup_cons.1 hl
    rw [findKey_cons]
    by_cases hk : key a = k
    · have hnone : findKey key k l = none :=
        findKey_eq_none.2 fun b hb heq => ha (hk ▸ heq ▸ mem_map_of_mem hb)
      rw [hnone, bind_none, toList_none] at ih
      rw [if_pos hk]
      cases hga : g a with
      | none => rw [filterMap_cons_none hga, ih hl, bind_some, hga, toList_none]
      | some b =>
        have hb : key' b = k := (hg a b hga).trans hk
        rw [filterMap_cons_some hga, filter_cons_of_pos (by simpa using hb), ih hl,
          bind_some, hga, toList_some]
    · rw [if_neg hk, ← ih hl]
      cases hga : g a with
      | none => rw [filterMap_cons_none hga]
      | some b =>
        have hb : key' b ≠ k := fun heq => hk ((hg a b hga).symm.trans heq)
        rw [filterMap_cons_some hga, filter_cons_of_neg (by simpa using hb)]

end

open List Option Function

namespace Slots

variable {ι κ β : Type*}
variable {W' : Set ι} {v : ι → β} {i : ι}

/-- The table holds `f` on a window. -/
def Holds (key : ι → κ) (W : Set ι) (t : κ → β) (f : ι → β) : Prop := ∀ i ∈ W, t (key i) = f i

theorem Holds.mono {key : ι → κ} {W : Set ι} {t : κ → β} {f : ι → β} (h : Holds key W t f)
    (hW : W' ⊆ W) : Holds key W' t f :=
  fun i hi => h i (hW hi)

variable [DecidableEq κ]

/-- A loop that writes `v i` for each `i` of the list. -/
def writes (key : ι → κ) (v : ι → β) (l : List ι) (t : κ → β) : κ → β :=
  l.foldl (fun t i => Function.update t (key i) (v i)) t

theorem writes_append (key : ι → κ) (v : ι → β) (l l' : List ι) (t : κ → β) :
    writes key v (l ++ l') t = writes key v l' (writes key v l t) := by
  simp [writes]

theorem writes_of_not_mem {key : ι → κ} {l : List ι} {x : κ} (h : ∀ i ∈ l, key i ≠ x) (t : κ → β) :
    writes key v l t x = t x := by
  induction l generalizing t with
  | nil => rfl
  | cons i l ih =>
    change writes key v l (Function.update t (key i) (v i)) x = t x
    rw [ih fun j hj => h j (mem_cons_of_mem i hj)]
    exact update_of_ne (h i mem_cons_self).symm _ _

theorem writes_of_mem {key : ι → κ} {l : List ι} (hinj : Set.InjOn key {i | i ∈ l}) (hi : i ∈ l)
    (t : κ → β) : writes key v l t (key i) = v i := by
  induction l using reverseRecOn with
  | nil => cases hi
  | append_singleton l j ih =>
    rw [writes_append]
    change Function.update (writes key v l t) (key j) (v j) (key i) = v i
    by_cases hij : key i = key j
    · obtain rfl : i = j := hinj hi (by simp) hij
      exact update_self _ _ _
    · rw [update_of_ne hij]
      apply ih (hinj.mono fun k hk => mem_append_left _ hk)
      rcases mem_append.1 hi with hi | hi
      · exact hi
      · exact absurd (congrArg key (mem_singleton.1 hi)) hij

variable {key key' : ι → κ} {W : Set ι} {t : κ → β} {f g : ι → β}

theorem Holds.update [DecidableEq ι] (h : Holds key W t f) (hinj : Set.InjOn key W) (hi : i ∈ W)
    (b : β) : Holds key W (Function.update t (key i) b) (Function.update f i b) := by
  intro j hj
  by_cases hij : j = i
  · rw [hij, update_self, update_self]
  · rw [update_of_ne hij, update_of_ne fun heq => hij (hinj hj hi heq)]
    exact h j hj

theorem Holds.insert (h : Holds key W t f) (hinj : Set.InjOn key (insert i W)) :
    Holds key (insert i W) (Function.update t (key i) (f i)) f := by
  intro j hj
  by_cases hij : key j = key i
  · rw [hij, update_self, hinj hj (Set.mem_insert i W) hij]
  · rw [update_of_ne hij]
    exact h j (hj.resolve_left fun heq => hij (congrArg key heq))

theorem Holds.writes {l : List ι} (h : Holds key W t f) (hinj : Set.InjOn key W')
    (hl : ∀ i ∈ l, i ∈ W') (hW : ∀ i ∈ W', i ∈ l ∨ i ∈ W) (hv : ∀ i ∈ l, v i = g i)
    (hg : ∀ i ∈ W', i ∉ l → f i = g i) : Holds key W' (Slots.writes key v l t) g := by
  intro i hi
  by_cases hil : i ∈ l
  · rw [writes_of_mem (hinj.mono hl) hil, hv i hil]
  · rw [writes_of_not_mem (fun j hj heq => hil (hinj (hl j hj) hi heq ▸ hj)),
      h i ((hW i hi).resolve_left hil), hg i hi hil]

theorem Holds.copy (h : Holds key W t f) {l : List ι} (hl : ∀ i, i ∈ l ↔ i ∈ W)
    (hinj : Set.InjOn key' W) (t' : κ → β) :
    Holds key' W (Slots.writes key' (fun i => t (key i)) l t') f := by
  intro i hi
  rw [writes_of_mem (hinj.mono fun j hj => (hl j).1 hj) ((hl i).2 hi)]
  exact h i hi

end Slots

theorem emod_ne_emod {i j n : ℤ} (hne : j ≠ i) (h : |j - i| < n) : j % n ≠ i % n := fun heq =>
  hne (sub_eq_zero.1 (Int.eq_zero_of_abs_lt_dvd (Int.ModEq.dvd heq.symm) h))

theorem emod_injOn (a n : ℤ) : Set.InjOn (fun i : ℤ => i % n) (Set.Ico a (a + n)) := by
  rintro i ⟨hai, hin⟩ j ⟨haj, hjn⟩ hij
  by_contra hne
  exact emod_ne_emod hne (abs_lt.2 (by omega)) hij

theorem mask_injOn (a k : ℕ) :
    Set.InjOn (fun i : ℕ => i &&& (2 ^ k - 1)) (Set.Ico a (a + 2 ^ k)) := by
  intro i hi j hj hij
  simp only [Nat.and_two_pow_sub_one_eq_mod] at hij
  have hcast : (i : ℤ) % 2 ^ k = (j : ℤ) % 2 ^ k := by exact_mod_cast hij
  have hmem : ∀ x ∈ Set.Ico a (a + 2 ^ k), (x : ℤ) ∈ Set.Ico (a : ℤ) (a + 2 ^ k) := by
    rintro x ⟨hax, hx⟩
    exact ⟨by exact_mod_cast hax, by exact_mod_cast hx⟩
  exact_mod_cast emod_injOn a (2 ^ k) (hmem i hi) (hmem j hj) hcast

end Ns2
