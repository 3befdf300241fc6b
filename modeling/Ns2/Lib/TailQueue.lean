import Mathlib.Data.List.Nodup

/-! Singly linked lists with a pointer to the last cell. -/

namespace Ns2

open List Function

structure TailQueue (P : Type*) where
  head : Option P
  tail : Option P
  next : P → Option P

namespace TailQueue

variable {P : Type*} {n n' : P → Option P} {o o' : Option P} {l l₁ l₂ : List P} {a p x : P}

/-- From `o` the pointers lead through the cells `l` to `o'`. -/
def Seg (n : P → Option P) : Option P → List P → Option P → Prop
  | o, [], o' => o = o'
  | o, a :: l, o' => o = some a ∧ Seg n (n a) l o'

@[simp] theorem seg_nil : Seg n o [] o' ↔ o = o' := Iff.rfl

@[simp] theorem seg_cons : Seg n o (a :: l) o' ↔ o = some a ∧ Seg n (n a) l o' := Iff.rfl

theorem seg_append : Seg n o (l₁ ++ l₂) o' ↔ ∃ m, Seg n o l₁ m ∧ Seg n m l₂ o' := by
  induction l₁ generalizing o with
  | nil => simp
  | cons a l₁ ih =>
    rw [cons_append, seg_cons, ih]
    constructor
    · rintro ⟨ho, m, h₁, h₂⟩
      exact ⟨m, ⟨ho, h₁⟩, h₂⟩
    · rintro ⟨m, ⟨ho, h₁⟩, h₂⟩
      exact ⟨ho, m, h₁, h₂⟩

theorem seg_congr (h : ∀ a ∈ l, n' a = n a) : Seg n' o l o' ↔ Seg n o l o' := by
  induction l generalizing o with
  | nil => rfl
  | cons a l ih =>
    rw [forall_mem_cons] at h
    rw [seg_cons, seg_cons, h.1, ih h.2]

theorem Seg.head (h : Seg n o l none) : o = l.head? := by
  cases l with
  | nil => exact h
  | cons a l => exact h.1

/-- The cells of the queue in order. -/
structure Rep (k : TailQueue P) (l : List P) : Prop where
  nodup : l.Nodup
  seg : Seg k.next k.head l none
  tail : k.tail = l.getLast?

variable {k : TailQueue P}

theorem Rep.nil (hhead : k.head = none) (htail : k.tail = none) : k.Rep [] :=
  ⟨nodup_nil, hhead, htail⟩

theorem Rep.head (h : k.Rep l) : k.head = l.head? := h.seg.head

theorem Rep.next (h : k.Rep (l₁ ++ a :: l₂)) : k.next a = l₂.head? := by
  obtain ⟨m, -, h₂⟩ := seg_append.1 h.seg
  exact h₂.2.head

theorem Rep.tail_ne (h : k.Rep (l₁ ++ a :: l₂)) (hl : l₂ ≠ []) : k.tail ≠ some a := by
  rw [h.tail, getLast?_append_of_ne_nil _ (cons_ne_nil a l₂),
    getLast?_cons_of_ne_nil hl]
  intro heq
  have ha : a ∈ l₂ := mem_of_getLast? heq
  exact (nodup_cons.1 (nodup_append.1 h.nodup).2.1).1 ha

/-- The first cell leaves. -/
def pop (a : P) (k : TailQueue P) [DecidableEq P] : TailQueue P :=
  if k.tail = some a then { k with head := none, tail := none } else { k with head := k.next a }

theorem Rep.pop [DecidableEq P] (h : k.Rep (a :: l)) : (k.pop a).Rep l := by
  have htail := h.tail
  by_cases hl : l = []
  · subst hl
    have hlast : k.tail = some a := htail
    rw [TailQueue.pop, if_pos hlast]
    exact Rep.nil rfl rfl
  · have hcons : k.Rep ([] ++ a :: l) := h
    rw [TailQueue.pop, if_neg (hcons.tail_ne hl)]
    rw [getLast?_cons_of_ne_nil hl] at htail
    exact ⟨(nodup_cons.1 h.nodup).2, h.seg.2, htail⟩

section

variable [DecidableEq P]

theorem seg_update {v : Option P} (ha : a ∉ l) :
    Seg (Function.update n a v) o l o' ↔ Seg n o l o' := by
  refine seg_congr fun b hb => update_of_ne ?_ _ _
  rintro rfl
  exact ha hb

/-- A cell joins at the end. -/
def push (a : P) (k : TailQueue P) : TailQueue P :=
  let k : TailQueue P :=
    match k.tail with
    | none => { k with head := some a, tail := some a }
    | some t => { k with next := Function.update k.next t (some a), tail := some a }
  { k with next := Function.update k.next a none }

theorem Rep.push (h : k.Rep l) (ha : a ∉ l) : (k.push a).Rep (l ++ [a]) := by
  have hnodup : (l ++ [a]).Nodup :=
    (perm_append_singleton a l).nodup_iff.2 (nodup_cons.2 ⟨ha, h.nodup⟩)
  have htail := h.tail
  rcases eq_nil_or_concat' l with rfl | ⟨m, t, rfl⟩
  · rw [getLast?_nil] at htail
    refine ⟨hnodup, ?_, ?_⟩
    · simp [TailQueue.push, htail]
    · simp [TailQueue.push, htail]
  · rw [getLast?_concat] at htail
    have hta : t ≠ a := by
      rintro rfl
      exact ha (mem_append_right m (mem_singleton_self t))
    have ht : t ∉ m := fun hm =>
      (nodup_append.1 h.nodup).2.2 t hm t (mem_singleton_self t) rfl
    have ham : a ∉ m := fun hm => ha (mem_append_left _ hm)
    obtain ⟨o, hm, ho⟩ := seg_append.1 h.seg
    refine ⟨hnodup, ?_, ?_⟩
    · simp only [TailQueue.push, htail]
      rw [append_assoc, seg_append]
      refine ⟨o, ?_, ho.1, ?_⟩
      · rwa [seg_update ham, seg_update ht]
      · simp [update_of_ne hta]
    · simp [TailQueue.push, htail]

/-- The cell `a` leaves, which follows `p`. -/
def unlink (a p : P) (k : TailQueue P) : TailQueue P :=
  let k : TailQueue P := { k with next := Function.update k.next p (k.next a) }
  if k.tail = some a then { k with tail := some p } else k

theorem Rep.unlink (h : k.Rep (l₁ ++ p :: a :: l₂)) : (k.unlink a p).Rep (l₁ ++ p :: l₂) := by
  have hsub : (l₁ ++ p :: l₂).Sublist (l₁ ++ p :: a :: l₂) :=
    ((sublist_cons_self a l₂).cons_cons p).append_left l₁
  have hnodup := h.nodup.sublist hsub
  obtain ⟨-, hp, hdisj⟩ := nodup_append.1 hnodup
  have hp₁ : p ∉ l₁ := fun hmem => hdisj p hmem p mem_cons_self rfl
  have hp₂ : p ∉ l₂ := (nodup_cons.1 hp).1
  obtain ⟨m, h₁, hm, hpa, h₂⟩ := seg_append.1 h.seg
  have hseg : Seg (Function.update k.next p (k.next a)) k.head (l₁ ++ p :: l₂) none := by
    rw [seg_append]
    refine ⟨m, (seg_update hp₁).2 h₁, hm, ?_⟩
    rw [update_self]
    exact (seg_update hp₂).2 h₂
  unfold TailQueue.unlink
  dsimp only
  by_cases hl : l₂ = []
  · subst hl
    have htail : k.tail = some a := by
      rw [h.tail]
      simp
    rw [if_pos htail]
    exact ⟨hnodup, hseg, by simp⟩
  · have hsplit : l₁ ++ p :: a :: l₂ = (l₁ ++ [p]) ++ a :: l₂ := by simp
    have htail := h.tail
    rw [if_neg (Rep.tail_ne (hsplit ▸ h) hl)]
    refine ⟨hnodup, hseg, htail.trans ?_⟩
    rw [getLast?_append_of_ne_nil _ (cons_ne_nil _ _),
      getLast?_append_of_ne_nil _ (cons_ne_nil _ _),
      getLast?_cons_of_ne_nil (cons_ne_nil _ _), getLast?_cons_of_ne_nil hl,
      getLast?_cons_of_ne_nil hl]

/-- The cell `a` joins between `p` and `x`. -/
def link (a p x : P) (k : TailQueue P) : TailQueue P :=
  { k with next := Function.update (Function.update k.next a (some x)) p (some a) }

theorem Rep.link (h : k.Rep (l₁ ++ p :: x :: l₂)) (ha : a ∉ l₁ ++ p :: x :: l₂) :
    (k.link a p x).Rep (l₁ ++ p :: a :: x :: l₂) := by
  obtain ⟨-, hnodup, hdisj⟩ := nodup_append.1 h.nodup
  have hp₁ : p ∉ l₁ := fun hmem => hdisj p hmem p mem_cons_self rfl
  have hp₂ : p ∉ x :: l₂ := (nodup_cons.1 hnodup).1
  obtain ⟨m, h₁, hm, h₂⟩ := seg_append.1 h.seg
  have ha₁ : a ∉ l₁ := fun hmem => ha (mem_append_left _ hmem)
  have ha₂ : a ∉ p :: x :: l₂ := fun hmem => ha (mem_append_right _ hmem)
  have hap : a ≠ p := fun heq => ha₂ (heq ▸ mem_cons_self)
  have ha₃ : a ∉ x :: l₂ := fun hmem => ha₂ (mem_cons_of_mem p hmem)
  refine ⟨?_, ?_, ?_⟩
  · have hperm : (l₁ ++ p :: a :: x :: l₂).Perm (a :: (l₁ ++ p :: x :: l₂)) :=
      ((Perm.swap a p _).append_left l₁).trans perm_middle
    exact hperm.nodup_iff.2 (nodup_cons.2 ⟨ha, h.nodup⟩)
  · rw [seg_append]
    refine ⟨m, ?_, hm, ?_, ?_⟩
    · exact (seg_update hp₁).2 ((seg_update ha₁).2 h₁)
    · exact update_self ..
    · have hnext : k.next p = some x := h₂.1
      have hlink : (k.link a p x).next a = some x := by
        unfold TailQueue.link
        dsimp only
        rw [update_of_ne hap, update_self]
      rw [hlink, ← hnext]
      exact (seg_update hp₂).2 ((seg_update ha₃).2 h₂)
  · refine h.tail.trans ?_
    rw [getLast?_append_of_ne_nil _ (cons_ne_nil _ _),
      getLast?_append_of_ne_nil _ (cons_ne_nil _ _),
      getLast?_cons_of_ne_nil (cons_ne_nil _ _),
      getLast?_cons_of_ne_nil (cons_ne_nil _ _),
      getLast?_cons_of_ne_nil (cons_ne_nil _ _)]

end

end TailQueue

end Ns2
