import Mathlib.Data.List.Sort
import Mathlib.Data.Prod.Lex

/-! Lists kept in key order, with insertion after or before the entries of equal key. A key-sorted
list is determined by its runs of equal key, so any procedure that keeps those runs rebuilds the
same list. Spans (offset, length) over a range, and a buffer filled from them. One pass over spans
in offset order finds out whether they cover the range, and writing a covering family of slices of
a list rebuilds the list. -/

namespace Ns2

open List

variable {α β κ : Type*}
variable {l : List α} {e x : α}
variable {f : α → β} {a : α} {l' r : List α} {ι : Type*} {sub : α → ι} {k : κ}

theorem split_of_mem [DecidableEq β] (h : (l.map f).Nodup) (he : e ∈ l) :
    ∃ before after, l = before ++ e :: after ∧
      l.takeWhile (fun x => f x ≠ f e) = before ∧
      l.dropWhile (fun x => f x ≠ f e) = e :: after ∧
      before ++ after = l.filter fun x => f x ≠ f e := by
  induction l with
  | nil => cases he
  | cons x l ih =>
    rw [map_cons, nodup_cons] at h
    by_cases hx : f x = f e
    · have hxe : x = e := by
        rcases mem_cons.1 he with rfl | he
        · rfl
        · exact absurd (mem_map_of_mem he) (hx ▸ h.1)
      subst hxe
      refine ⟨[], l, rfl, by simp, by simp, ?_⟩
      rw [filter_cons_of_neg (by simp), nil_append, eq_comm, filter_eq_self]
      intro y hy
      exact decide_eq_true fun hyx => h.1 (hyx ▸ mem_map_of_mem hy)
    · have he : e ∈ l := by
        rcases mem_cons.1 he with rfl | he
        · exact absurd rfl hx
        · exact he
      obtain ⟨before, after, hl, htake, hdrop, hrest⟩ := ih h.2 he
      refine ⟨x :: before, after, by rw [hl]; rfl, ?_, ?_, ?_⟩
      · rw [takeWhile_cons_of_pos (by simpa using hx), htake]
      · rw [dropWhile_cons_of_pos (by simpa using hx), hdrop]
      · rw [cons_append, hrest, filter_cons_of_pos (by simpa using hx)]

theorem perm_cons_filter_ne [DecidableEq β] (h : (l.map f).Nodup) (he : e ∈ l) :
    l.Perm (e :: l.filter fun x => f x ≠ f e) := by
  obtain ⟨before, after, hl, -, -, hrest⟩ := split_of_mem h he
  rw [← hrest, hl]
  exact perm_middle

variable [LinearOrder κ] (key : α → κ)

def KeySorted (l : List α) : Prop := l.Pairwise fun a b => key a ≤ key b

/-- Insertion behind every entry whose key is not larger (first in, first out). -/
def insertAfter (e : α) (l : List α) : List α := l.orderedInsert (fun a b => key a < key b) e

/-- Insertion in front of every entry whose key is not smaller. -/
def insertBefore (e : α) (l : List α) : List α := l.orderedInsert (fun a b => key a ≤ key b) e

variable {key}

theorem KeySorted.filter (h : KeySorted key l) (p : α → Bool) :
    KeySorted key (l.filter p) := Pairwise.filter p h

theorem KeySorted.tail (h : KeySorted key (a :: l)) : KeySorted key l :=
  (pairwise_cons.1 h).2

theorem KeySorted.head_le (h : KeySorted key (a :: l)) :
    ∀ b ∈ l, key a ≤ key b := (pairwise_cons.1 h).1

theorem KeySorted.append (h : KeySorted key l) (h' : KeySorted key l')
    (hle : ∀ a ∈ l, ∀ b ∈ l', key a ≤ key b) : KeySorted key (l ++ l') :=
  pairwise_append.2 ⟨h, h', hle⟩

theorem insertAfter_cons (e x : α) (l : List α) : insertAfter key e (x :: l) =
    if key e < key x then e :: x :: l else x :: insertAfter key e l := orderedInsert_cons _ e x l

theorem insertBefore_cons (e x : α) (l : List α) : insertBefore key e (x :: l) =
    if key e ≤ key x then e :: x :: l else x :: insertBefore key e l := orderedInsert_cons _ e x l

theorem insertAfter_eq (h : KeySorted key l) (e : α) :
    insertAfter key e l =
      l.filter (fun x => key x ≤ key e) ++ e :: l.filter (fun x => key e < key x) := by
  induction l with
  | nil => rfl
  | cons x l ih =>
    have ih := ih h.tail
    rw [insertAfter_cons]
    by_cases hx : key e < key x
    · have h1 : l.filter (fun y => key y ≤ key e) = [] := by
        rw [filter_eq_nil_iff]
        intro y hy
        simpa using lt_of_lt_of_le hx (h.head_le y hy)
      have h2 : l.filter (fun y => key e < key y) = l := by
        rw [filter_eq_self]
        intro y hy
        simpa using lt_of_lt_of_le hx (h.head_le y hy)
      simp [hx, h1, h2]
    · simp [hx, ih, not_lt.1 hx]

theorem insertBefore_eq (h : KeySorted key l) (e : α) :
    insertBefore key e l =
      l.filter (fun x => key x < key e) ++ e :: l.filter (fun x => key e ≤ key x) := by
  induction l with
  | nil => rfl
  | cons x l ih =>
    have ih := ih h.tail
    rw [insertBefore_cons]
    by_cases hx : key e ≤ key x
    · have h1 : l.filter (fun y => key y < key e) = [] := by
        rw [filter_eq_nil_iff]
        intro y hy
        simpa using le_trans hx (h.head_le y hy)
      have h2 : l.filter (fun y => key e ≤ key y) = l := by
        rw [filter_eq_self]
        intro y hy
        simpa using le_trans hx (h.head_le y hy)
      simp [hx, h1, h2]
    · simp [hx, ih, not_le.1 hx]

theorem insertAfter_perm (e : α) (l : List α) : (insertAfter key e l).Perm (e :: l) :=
  perm_orderedInsert _ e l

theorem insertBefore_perm (e : α) (l : List α) : (insertBefore key e l).Perm (e :: l) :=
  perm_orderedInsert _ e l

@[simp] theorem mem_insertAfter :
    x ∈ insertAfter key e l ↔ x = e ∨ x ∈ l := mem_orderedInsert _

@[simp] theorem length_insertAfter (e : α) (l : List α) :
    (insertAfter key e l).length = l.length + 1 := orderedInsert_length _ l e

theorem KeySorted.insertAfter (h : KeySorted key l) (e : α) :
    KeySorted key (insertAfter key e l) := by
  rw [insertAfter_eq h]
  refine (h.filter _).append (pairwise_cons.2 ⟨?_, h.filter _⟩) ?_
  · intro b hb
    exact le_of_lt (by simpa using (mem_filter.1 hb).2)
  · intro a ha b hb
    have ha : key a ≤ key e := by simpa using (mem_filter.1 ha).2
    rcases mem_cons.1 hb with rfl | hb
    · exact ha
    · exact ha.trans (le_of_lt (by simpa using (mem_filter.1 hb).2))

theorem KeySorted.insertBefore (h : KeySorted key l) (e : α) :
    KeySorted key (insertBefore key e l) := by
  rw [insertBefore_eq h]
  refine (h.filter _).append (pairwise_cons.2 ⟨?_, h.filter _⟩) ?_
  · intro b hb
    simpa using (mem_filter.1 hb).2
  · intro a ha b hb
    have ha : key a < key e := by simpa using (mem_filter.1 ha).2
    rcases mem_cons.1 hb with rfl | hb
    · exact ha.le
    · exact ha.le.trans (by simpa using (mem_filter.1 hb).2)

theorem keySorted_of_lex [LinearOrder ι]
    (h : l.Pairwise fun a b => toLex (key a, sub a) < toLex (key b, sub b)) : KeySorted key l := by
  refine h.imp fun {a b} hab => ?_
  rcases Prod.Lex.toLex_lt_toLex.1 hab with hlt | heq
  · exact hlt.le
  · exact heq.1.le

/-- Insertion behind equal keys keeps the strict order, when the second number of
the new entry is the largest of its key. -/
theorem pairwise_lex_insertAfter [LinearOrder ι]
    (h : l.Pairwise fun a b => toLex (key a, sub a) < toLex (key b, sub b))
    (hx : ∀ y ∈ l, key y = key x → sub y < sub x) :
    (Ns2.insertAfter key x l).Pairwise
      fun a b => toLex (key a, sub a) < toLex (key b, sub b) := by
  rw [insertAfter_eq (keySorted_of_lex h)]
  have hbefore : ∀ y ∈ l, key y ≤ key x → toLex (key y, sub y) < toLex (key x, sub x) := by
    intro y hy hle
    rw [Prod.Lex.toLex_lt_toLex]
    rcases hle.lt_or_eq with hlt | heq
    · exact Or.inl hlt
    · exact Or.inr ⟨heq, hx y hy heq⟩
  have hafter : ∀ y, key x < key y → toLex (key x, sub x) < toLex (key y, sub y) :=
    fun y hlt => Prod.Lex.toLex_lt_toLex.2 (Or.inl hlt)
  refine pairwise_append.2 ⟨h.filter _, pairwise_cons.2 ⟨?_, h.filter _⟩, ?_⟩
  · intro b hb
    exact hafter b (by simpa using (mem_filter.1 hb).2)
  · intro a ha b hb
    have hax := hbefore a (mem_filter.1 ha).1 (by simpa using (mem_filter.1 ha).2)
    rcases mem_cons.1 hb with rfl | hb
    · exact hax
    · exact hax.trans (hafter b (by simpa using (mem_filter.1 hb).2))

theorem filter_le_of_lt (h : KeySorted key (l ++ x :: r)) (hk : k < key x) :
    (l ++ x :: r).filter (fun y => key y ≤ k) = l.filter (fun y => key y ≤ k) ∧
      (l ++ x :: r).filter (fun y => k < key y) = l.filter (fun y => k < key y) ++ x :: r := by
  have hr : ∀ y ∈ x :: r, k < key y := by
    intro y hy
    rcases mem_cons.1 hy with rfl | hy
    · exact hk
    · exact hk.trans_le (KeySorted.head_le (pairwise_append.1 h).2.1 y hy)
  have hle : (x :: r).filter (fun y => key y ≤ k) = [] :=
    filter_eq_nil_iff.2 fun y hy => by simpa using hr y hy
  have hlt : (x :: r).filter (fun y => k < key y) = x :: r :=
    filter_eq_self.2 fun y hy => by simpa using hr y hy
  rw [filter_append, filter_append, hle, hlt, append_nil]
  exact ⟨rfl, rfl⟩

theorem filter_le_of_le (h : KeySorted key (l ++ x :: r)) (hk : key x ≤ k) :
    (l ++ x :: r).filter (fun y => key y ≤ k) = l ++ x :: r.filter (fun y => key y ≤ k) ∧
      (l ++ x :: r).filter (fun y => k < key y) = r.filter (fun y => k < key y) := by
  have hl : ∀ y ∈ l, key y ≤ k :=
    fun y hy => ((pairwise_append.1 h).2.2 y hy x mem_cons_self).trans hk
  have hle : l.filter (fun y => key y ≤ k) = l :=
    filter_eq_self.2 fun y hy => by simpa using hl y hy
  have hlt : l.filter (fun y => k < key y) = [] :=
    filter_eq_nil_iff.2 fun y hy => by simpa using hl y hy
  rw [filter_append, filter_append, filter_cons_of_pos (by simpa using hk),
    filter_cons_of_neg (by simpa using hk), hle, hlt]
  exact ⟨rfl, rfl⟩

section

variable (h : KeySorted key l)
include h

theorem KeySorted.split {p : α → Bool} (hp : ∀ a b, key a ≤ key b → p b → p a) :
    l.filter p ++ l.filter (fun x => !p x) = l := by
  induction l with
  | nil => rfl
  | cons x l ih =>
    have ih := ih h.tail
    cases hx : p x with
    | true => simp [hx, ih]
    | false =>
      have hnil : l.filter p = [] := by
        rw [filter_eq_nil_iff]
        intro y hy hpy
        rw [hp x y (h.head_le y hy) hpy] at hx
        cases hx
      rw [hnil, nil_append] at ih
      simp [hx, hnil, ih]

theorem KeySorted.split_le (k : κ) :
    l.filter (fun x => key x ≤ k) ++ l.filter (fun x => k < key x) = l := by
  have := h.split (p := fun x => decide (key x ≤ k)) (by simpa using fun a b hab hb => hab.trans hb)
  simpa only [← decide_not, not_le] using this

theorem KeySorted.split_lt (k : κ) :
    l.filter (fun x => key x < k) ++ l.filter (fun x => k ≤ key x) = l := by
  have := h.split (p := fun x => decide (key x < k)) (by simpa using fun a b hab hb => hab.trans_lt hb)
  simpa only [← decide_not, not_lt] using this

theorem filter_insertAfter (e : α) (p : α → Bool) : (insertAfter key e l).filter p =
      if p e then insertAfter key e (l.filter p) else l.filter p := by
  rw [insertAfter_eq h, insertAfter_eq (h.filter p), filter_append, filter_cons]
  split_ifs with hp
  · simp only [filter_filter, Bool.and_comm]
  · rw [← filter_append, h.split_le]

theorem filter_insertBefore (e : α) (p : α → Bool) : (insertBefore key e l).filter p =
      if p e then insertBefore key e (l.filter p) else l.filter p := by
  rw [insertBefore_eq h, insertBefore_eq (h.filter p), filter_append, filter_cons]
  split_ifs with hp
  · simp only [filter_filter, Bool.and_comm]
  · rw [← filter_append, h.split_lt]

theorem KeySorted.eq_of_runs (h' : KeySorted key l')
    (hruns : ∀ k, l.filter (fun x => key x = k) = l'.filter (fun x => key x = k)) : l = l' := by
  induction l generalizing l' with
  | nil =>
    cases l' with
    | nil => rfl
    | cons b l' => exact absurd (hruns (key b)) (by simp)
  | cons a l ih =>
    cases l' with
    | nil => exact absurd (hruns (key a)) (by simp)
    | cons b l' =>
      have hmem : a ∈ (b :: l').filter (fun x => key x = key a) := by
        rw [← hruns (key a)]; simp
      have hmem' : b ∈ (a :: l).filter (fun x => key x = key b) := by
        rw [hruns (key b)]; simp
      -- each head has the least key of its list, so the two heads share a key
      have hba : key b ≤ key a := by
        rcases mem_cons.1 (mem_filter.1 hmem).1 with h1 | h1
        · exact le_of_eq (by rw [h1])
        · exact h'.head_le a h1
      have hab : key a ≤ key b := by
        rcases mem_cons.1 (mem_filter.1 hmem').1 with h1 | h1
        · exact le_of_eq (by rw [h1])
        · exact h.head_le b h1
      have hk : key a = key b := le_antisymm hab hba
      obtain ⟨rfl, -⟩ : a = b ∧ _ := by simpa [hk] using hruns (key b)
      rw [ih h.tail h'.tail fun k => by
        have := hruns k
        by_cases hak : key a = k <;> simpa [filter_cons, hak] using this]

end

theorem keySorted_foldr_insertBefore (xs : List α) :
    KeySorted key (xs.foldr (Ns2.insertBefore key) []) := by
  induction xs with
  | nil => exact Pairwise.nil
  | cons x xs ih => exact ih.insertBefore x

theorem foldr_insertBefore_runs (xs : List α) (k : κ) :
    (xs.foldr (Ns2.insertBefore key) []).filter (fun x => key x = k) =
      xs.filter (fun x => key x = k) := by
  induction xs with
  | nil => rfl
  | cons x xs ih =>
    rw [foldr_cons, filter_insertBefore (keySorted_foldr_insertBefore xs), ih, filter_cons]
    by_cases hx : key x = k
    · -- every entry of the run has the key of `x`, so `x` goes in front of it
      rw [insertBefore_eq (pairwise_of_forall_mem_list ?_)]
      · have h1 : (xs.filter fun y => key y = k).filter (fun y => key y < key x) = [] := by
          rw [filter_eq_nil_iff]
          intro y hy
          simp [hx, (by simpa using (mem_filter.1 hy).2 : key y = k)]
        have h2 : (xs.filter fun y => key y = k).filter (fun y => key x ≤ key y) =
            xs.filter fun y => key y = k := by
          rw [filter_eq_self]
          intro y hy
          simp [hx, (by simpa using (mem_filter.1 hy).2 : key y = k)]
        rw [h1, h2, nil_append]
      · intro a ha b hb
        have ha : key a = k := by simpa using (mem_filter.1 ha).2
        have hb : key b = k := by simpa using (mem_filter.1 hb).2
        exact (ha.trans hb.symm).le
    · simp [hx]

theorem KeySorted.foldr_insertBefore_eq {xs : List α} (h : KeySorted key l)
    (hruns : ∀ k, xs.filter (fun x => key x = k) = l.filter (fun x => key x = k)) :
    xs.foldr (Ns2.insertBefore key) [] = l :=
  (keySorted_foldr_insertBefore xs).eq_of_runs h fun k => by
    rw [foldr_insertBefore_runs, hruns]

theorem runs_flatMap_groups [DecidableEq β] (h : κ → β) {is : List β} (hn : is.Nodup)
    (hmem : ∀ e ∈ l, h (key e) ∈ is) (k : κ) :
    (is.flatMap fun i => l.filter fun e => h (key e) = i).filter (fun x => key x = k) =
      l.filter fun x => key x = k := by
  have hgroup : ∀ i, (l.filter fun e => h (key e) = i).filter (fun x => key x = k) =
      if h k = i then l.filter (fun x => key x = k) else [] := by
    intro i
    rw [filter_filter]
    split_ifs with hi
    · refine filter_congr fun x _ => ?_
      by_cases hx : key x = k <;> simp [hx, hi]
    · rw [filter_eq_nil_iff]
      intro x _
      simpa using fun hx => hx ▸ hi
  rw [filter_flatMap]
  simp only [hgroup]
  by_cases hk : h k ∈ is
  · clear hmem
    induction is with
    | nil => cases hk
    | cons i is ih =>
      rw [nodup_cons] at hn
      rw [flatMap_cons]
      by_cases hi : h k = i
      · have hnil : is.flatMap (fun j => if h k = j then l.filter (fun x => key x = k) else []) = [] := by
          rw [flatMap_eq_nil_iff]
          intro j hj
          rw [if_neg]
          rintro rfl
          exact hn.1 (hi ▸ hj)
        rw [hnil, if_pos hi, append_nil]
      · rw [if_neg hi, nil_append]
        exact ih hn.2 ((mem_cons.1 hk).resolve_left hi)
  · have hnil : l.filter (fun x => key x = k) = [] := by
      rw [filter_eq_nil_iff]
      intro x hx hxk
      exact hk (by simpa [of_decide_eq_true hxk] using hmem x hx)
    simp [hnil]

open List

variable {spans : List (ℕ × ℕ)} {n : ℕ}
variable {data p P : List α} {off : ℕ} {pieces : List (ℕ × List α)}

/-- Every position below `n` lies in one of the spans. -/
def Covers (spans : List (ℕ × ℕ)) (n : ℕ) : Prop :=
  ∀ i < n, ∃ s ∈ spans, s.1 ≤ i ∧ i < s.1 + s.2

theorem Covers.of_subset {spans' : List (ℕ × ℕ)} (h : Covers spans n)
    (hsub : ∀ s ∈ spans, s ∈ spans') : Covers spans' n := by
  intro i hi
  obtain ⟨s, hs, his⟩ := h i hi
  exact ⟨s, hsub s hs, his⟩

/-- The end of the covered prefix, from `co` on; `none` at the first gap. -/
def scan : ℕ → List (ℕ × ℕ) → Option ℕ
  | co, [] => some co
  | co, s :: spans => if co < s.1 then none else scan (max co (s.1 + s.2)) spans

theorem scan_eq_some_iff (hsorted : KeySorted Prod.fst spans) (hle : ∀ s ∈ spans, s.1 + s.2 ≤ n)
    {co : ℕ} (hco : co ≤ n) :
    scan co spans = some n ↔ ∀ i, co ≤ i → i < n → ∃ s ∈ spans, s.1 ≤ i ∧ i < s.1 + s.2 := by
  induction spans generalizing co with
  | nil =>
    rw [scan, Option.some_inj]
    constructor
    · intro h i hi hin
      omega
    · intro h
      by_contra hne
      obtain ⟨s, hs, -⟩ := h co le_rfl (by omega)
      cases hs
  | cons s spans ih =>
    have hs := hle s mem_cons_self
    rw [scan]
    split_ifs with hgap
    · refine iff_of_false (by simp) fun h => ?_
      obtain ⟨t, ht, htco, -⟩ := h co le_rfl (by omega)
      rcases mem_cons.1 ht with rfl | ht
      · omega
      · have := hsorted.head_le t ht
        omega
    · rw [ih hsorted.tail (fun t ht => hle t (mem_cons_of_mem _ ht)) (by omega)]
      constructor
      · intro h i hi hin
        rcases Nat.lt_or_ge i (s.1 + s.2) with hlt | hge
        · exact ⟨s, mem_cons_self, by omega, hlt⟩
        · obtain ⟨t, ht, hit⟩ := h i (by omega) hin
          exact ⟨t, mem_cons_of_mem _ ht, hit⟩
      · intro h i hi hin
        obtain ⟨t, ht, hit⟩ := h i (by omega) hin
        rcases mem_cons.1 ht with rfl | ht
        · omega
        · exact ⟨t, ht, hit⟩

theorem scan_zero_eq_some_iff (hsorted : KeySorted Prod.fst spans)
    (hle : ∀ s ∈ spans, s.1 + s.2 ≤ n) : scan 0 spans = some n ↔ Covers spans n := by
  rw [scan_eq_some_iff hsorted hle (Nat.zero_le n)]
  exact forall_congr' fun i => ⟨fun h => h (Nat.zero_le i), fun h _ => h⟩

variable {α : Type*}

/-- The buffer with `p` written from `off` on. -/
def overwrite (data : List α) (off : ℕ) (p : List α) : List α :=
  data.take off ++ p ++ data.drop (off + p.length)

theorem length_overwrite (h : off + p.length ≤ data.length) :
    (overwrite data off p).length = data.length := by
  simp only [overwrite, length_append, length_take, length_drop]
  omega

theorem getElem?_overwrite (h : off + p.length ≤ data.length) (i : ℕ) : (overwrite data off p)[i]? =
      if off ≤ i ∧ i < off + p.length then p[i - off]? else data[i]? := by
  have hlen : (data.take off).length = off := length_take_of_le (by omega)
  unfold overwrite
  rcases Nat.lt_or_ge i off with hi | hi
  · rw [if_neg (by omega), append_assoc, getElem?_append_left (by omega),
      getElem?_take_of_lt hi]
  · rcases Nat.lt_or_ge i (off + p.length) with hp | hp
    · rw [if_pos ⟨hi, hp⟩, append_assoc, getElem?_append_right (by omega), hlen,
        getElem?_append_left (by omega)]
    · rw [if_neg (by omega), getElem?_append_right (by rw [length_append]; omega),
        getElem?_drop, length_append, hlen]
      congr 1
      omega

/-- `p` holds what `P` holds from `off` on. -/
def IsSlice (P : List α) (off : ℕ) (p : List α) : Prop :=
  off + p.length ≤ P.length ∧ ∀ j < p.length, p[j]? = P[off + j]?

/-- Slices of `P` turn a buffer into `P` wherever one of them lies, and leave the
rest as it was. -/
theorem getElem?_foldl_overwrite (hslice : ∀ q ∈ pieces, IsSlice P q.1 q.2)
    (hdata : data.length = P.length) (i : ℕ) :
    (pieces.foldl (fun d q => overwrite d q.1 q.2) data)[i]? =
      if ∃ q ∈ pieces, q.1 ≤ i ∧ i < q.1 + q.2.length then P[i]? else data[i]? := by
  induction pieces generalizing data with
  | nil => simp
  | cons q pieces ih =>
    obtain ⟨hq, hbytes⟩ := hslice q mem_cons_self
    have hlen : (overwrite data q.1 q.2).length = P.length := by
      rw [length_overwrite (by omega), hdata]
    rw [foldl_cons, ih (fun r hr => hslice r (mem_cons_of_mem _ hr)) hlen,
      getElem?_overwrite (by omega)]
    by_cases hin : q.1 ≤ i ∧ i < q.1 + q.2.length
    · have hP : q.2[i - q.1]? = P[i]? := by
        rw [hbytes _ (by omega)]
        congr 1
        omega
      rw [if_pos hin, hP, ite_self, if_pos ⟨q, mem_cons_self, hin⟩]
    · simp only [mem_cons, exists_eq_or_imp, hin, false_or, if_false]

theorem foldl_overwrite_eq (hslice : ∀ q ∈ pieces, IsSlice P q.1 q.2)
    (hcov : Covers (pieces.map fun q => (q.1, q.2.length)) P.length)
    (hdata : data.length = P.length) : pieces.foldl (fun d q => overwrite d q.1 q.2) data = P := by
  refine ext_getElem? fun i => ?_
  rw [getElem?_foldl_overwrite hslice hdata]
  split_ifs with hin
  · rfl
  · rw [getElem?_eq_none, getElem?_eq_none]
    all_goals
      by_contra hlt
      obtain ⟨s, hs, his⟩ := hcov i (by omega)
      obtain ⟨q, hq, rfl⟩ := mem_map.1 hs
      exact hin ⟨q, hq, his⟩

end Ns2
