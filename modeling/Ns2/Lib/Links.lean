import Mathlib.Data.List.Induction
import Mathlib.Data.List.Nodup

/-! Doubly linked lists. The address `none` stands for the list itself: its successor is the
first cell and its predecessor the last one. -/

namespace Ns2

open List Function

structure Links (P : Type*) where
  next : Option P → Option P
  prev : Option P → Option P

namespace Links

variable {P : Type*}

/-- The cells of the list in order: at every cut, the cells on both sides are linked. -/
structure Rep (k : Links P) (l : List P) : Prop where
  nodup : l.Nodup
  cut : ∀ l₁ l₂, l = l₁ ++ l₂ →
    k.next l₁.getLast? = l₂.head? ∧ k.prev l₂.head? = l₁.getLast?

variable {k : Links P} {l l₁ l₂ : List P} {a : P}

theorem Rep.nil (hnext : k.next none = none) (hprev : k.prev none = none) : k.Rep [] := by
  refine ⟨nodup_nil, fun l₁ l₂ heq => ?_⟩
  obtain ⟨rfl, rfl⟩ := append_eq_nil_iff.1 heq.symm
  exact ⟨hnext, hprev⟩

theorem Rep.first (h : k.Rep l) : k.next none = l.head? := (h.cut [] l rfl).1

theorem Rep.last (h : k.Rep l) : k.prev none = l.getLast? := (h.cut l [] (by simp)).2

theorem Rep.next (h : k.Rep (l₁ ++ a :: l₂)) : k.next (some a) = l₂.head? := by
  have hcut := (h.cut (l₁ ++ [a]) l₂ (by simp)).1
  rwa [getLast?_concat] at hcut

theorem Rep.prev (h : k.Rep (l₁ ++ a :: l₂)) : k.prev (some a) = l₁.getLast? :=
  (h.cut l₁ (a :: l₂) rfl).2

theorem getLast?_append_ne {e : List P} (h : (l ++ e).Nodup) (he : e ≠ []) :
    (l ++ e).getLast? ≠ l.getLast? := by
  obtain ⟨e', x, rfl⟩ := (eq_nil_or_concat' e).resolve_left he
  intro heq
  rw [← append_assoc, getLast?_concat] at heq
  have hx : x ∈ l := mem_of_getLast? heq.symm
  exact (nodup_append.1 h).2.2 x hx x (by simp) rfl

theorem head?_append_ne {e : List P} (h : (e ++ l).Nodup) (he : e ≠ []) :
    (e ++ l).head? ≠ l.head? := by
  obtain ⟨x, e', rfl⟩ := exists_cons_of_ne_nil he
  intro heq
  have hx : x ∈ l := mem_of_head? heq.symm
  exact (nodup_append.1 h).2.2 x (by simp) x hx rfl

theorem Rep.of_join {k' : Links P} (hnodup : (l₁ ++ l₂).Nodup)
    (hjoin : k'.next l₁.getLast? = l₂.head? ∧ k'.prev l₂.head? = l₁.getLast?)
    (hleft : ∀ m e, l₁ = m ++ e → e ≠ [] →
      k'.next m.getLast? = e.head? ∧ k'.prev e.head? = m.getLast?)
    (hright : ∀ e m, l₂ = e ++ m → e ≠ [] →
      k'.next e.getLast? = m.head? ∧ k'.prev m.head? = e.getLast?) : k'.Rep (l₁ ++ l₂) := by
  refine ⟨hnodup, fun m₁ m₂ heq => ?_⟩
  rcases append_eq_append_iff.1 heq with ⟨e, rfl, rfl⟩ | ⟨e, rfl, rfl⟩
  · by_cases he : e = []
    · subst he
      simpa using hjoin
    · have h := hright e m₂ rfl he
      rwa [getLast?_append_of_ne_nil _ he]
  · by_cases he : e = []
    · subst he
      simpa using hjoin
    · have h := hleft m₁ e rfl he
      rwa [head?_append_of_ne_nil _ he]

section

variable [DecidableEq P]

/-- Unlink a cell. -/
def remove (a : P) (k : Links P) : Links P :=
  let k : Links P := { k with next := Function.update k.next (k.prev (some a)) (k.next (some a)) }
  { k with prev := Function.update k.prev (k.next (some a)) (k.prev (some a)) }

/-- Link a cell between two neighbours. -/
def insert (a : P) (p q : Option P) (k : Links P) : Links P where
  next := Function.update (Function.update k.next (some a) q) p (some a)
  prev := Function.update (Function.update k.prev (some a) p) q (some a)

theorem Rep.remove_eq (h : k.Rep (l₁ ++ a :: l₂)) :
    k.remove a = ⟨Function.update k.next l₁.getLast? l₂.head?,
      Function.update k.prev l₂.head? l₁.getLast?⟩ := by
  have hne : some a ≠ l₁.getLast? := by
    intro heq
    have ha : a ∈ l₁ := mem_of_getLast? heq.symm
    exact (nodup_append.1 h.nodup).2.2 a ha a (by simp) rfl
  simp only [remove, h.prev, h.next, update_of_ne hne]

theorem Rep.remove (h : k.Rep (l₁ ++ a :: l₂)) : (k.remove a).Rep (l₁ ++ l₂) := by
  have hnodup : (l₁ ++ l₂).Nodup :=
    h.nodup.sublist ((sublist_cons_self a l₂).append_left l₁)
  rw [h.remove_eq]
  apply Rep.of_join hnodup
  · simp
  · rintro m e rfl he
    have hlast := getLast?_append_ne (nodup_append.1 hnodup).1 he
    have hhead : (e ++ l₂).head? ≠ l₂.head? := by
      apply head?_append_ne (hnodup.sublist _) he
      exact (sublist_append_right m e).append_right l₂
    rw [head?_append_of_ne_nil _ he] at hhead
    dsimp only
    rw [update_of_ne hlast.symm, update_of_ne hhead]
    have hcut := h.cut m (e ++ a :: l₂) (by simp)
    rwa [head?_append_of_ne_nil _ he] at hcut
  · rintro e m rfl he
    have hhead := head?_append_ne (nodup_append.1 hnodup).2.1 he
    have hlast : (l₁ ++ e).getLast? ≠ l₁.getLast? := by
      apply getLast?_append_ne (hnodup.sublist _) he
      exact (sublist_append_left e m).append_left l₁
    rw [getLast?_append_of_ne_nil _ he] at hlast
    dsimp only
    rw [update_of_ne hlast, update_of_ne hhead.symm]
    have hcut := h.cut (l₁ ++ a :: e) m (by simp)
    rwa [getLast?_append_of_ne_nil _ (by simp), getLast?_cons_of_ne_nil he] at hcut

theorem Rep.remove_erase (h : k.Rep l) (ha : a ∈ l) :
    (k.remove a).Rep (l.erase a) := by
  obtain ⟨l₁, l₂, rfl⟩ := append_of_mem ha
  have hnot : a ∉ l₁ := fun hmem => (nodup_append.1 h.nodup).2.2 a hmem a (by simp) rfl
  rw [erase_append_right _ hnot, erase_cons_head]
  exact h.remove

theorem Rep.insert (h : k.Rep (l₁ ++ l₂)) (ha : a ∉ l₁ ++ l₂) :
    (k.insert a l₁.getLast? l₂.head?).Rep (l₁ ++ a :: l₂) := by
  have hnodup : (l₁ ++ a :: l₂).Nodup := by
    rw [nodup_middle, nodup_cons]
    exact ⟨ha, h.nodup⟩
  rw [mem_append, not_or] at ha
  have hlast : some a ≠ l₁.getLast? := fun heq => ha.1 (mem_of_getLast? heq.symm)
  have hhead : some a ≠ l₂.head? := fun heq => ha.2 (mem_of_head? heq.symm)
  apply Rep.of_join hnodup
  · constructor
    · exact update_self ..
    · change Function.update (Function.update k.prev _ _) l₂.head? (some a) (some a) = _
      rw [update_of_ne hhead, update_self]
  · rintro m e rfl he
    have hlast' := getLast?_append_ne (nodup_append.1 h.nodup).1 he
    have hhead' : (e ++ l₂).head? ≠ l₂.head? := by
      apply head?_append_ne (h.nodup.sublist _) he
      exact (sublist_append_right m e).append_right l₂
    rw [head?_append_of_ne_nil _ he] at hhead'
    have hm : m.getLast? ≠ some a := fun heq => ha.1 (by simp [mem_of_getLast? heq])
    have hea : e.head? ≠ some a := fun heq => ha.1 (by simp [mem_of_head? heq])
    dsimp only [Links.insert]
    rw [update_of_ne hlast'.symm, update_of_ne hm,
      update_of_ne hhead', update_of_ne hea]
    have hcut := h.cut m (e ++ l₂) (by simp)
    rwa [head?_append_of_ne_nil _ he] at hcut
  · intro e m heq he
    obtain ⟨x, e, rfl⟩ := exists_cons_of_ne_nil he
    obtain ⟨rfl, rfl⟩ : a = x ∧ l₂ = e ++ m := List.cons.inj heq
    dsimp only [Links.insert]
    by_cases hnil : e = []
    · subst hnil
      rw [getLast?_singleton, update_of_ne hlast, update_self]
      exact ⟨rfl, update_self ..⟩
    · have hhead' := head?_append_ne (nodup_append.1 h.nodup).2.1 hnil
      have hlast' : (l₁ ++ e).getLast? ≠ l₁.getLast? := by
        apply getLast?_append_ne (h.nodup.sublist _) hnil
        exact (sublist_append_left e m).append_left l₁
      rw [getLast?_append_of_ne_nil _ hnil] at hlast'
      have hm : m.head? ≠ some a := fun heq => ha.2 (by simp [mem_of_head? heq])
      have hea : e.getLast? ≠ some a := fun heq => ha.2 (by simp [mem_of_getLast? heq])
      rw [getLast?_cons_of_ne_nil hnil, update_of_ne hlast',
        update_of_ne hea, update_of_ne hhead'.symm, update_of_ne hm]
      have hcut := h.cut (l₁ ++ e) m (by simp)
      rwa [getLast?_append_of_ne_nil _ hnil] at hcut

theorem Rep.push (h : k.Rep l) (ha : a ∉ l) : (k.insert a none (k.next none)).Rep (a :: l) := by
  have hnil : k.Rep ([] ++ l) := h
  rw [h.first]
  exact hnil.insert ha

theorem Rep.remove_next (h : k.Rep (l₁ ++ a :: l₂)) {b : P} (hb : b ∉ l₁) :
    (k.remove a).next (some b) = k.next (some b) := by
  rw [h.remove_eq]
  exact update_of_ne (fun heq => hb (mem_of_getLast? heq.symm)) ..

theorem Rep.update_next (h : k.Rep l) (ha : a ∉ l) (o : Option P) :
    Links.Rep { k with next := Function.update k.next (some a) o } l := by
  refine ⟨h.nodup, fun l₁ l₂ heq => ?_⟩
  have hne : l₁.getLast? ≠ some a := by
    intro hlast
    exact ha (heq ▸ mem_append_left l₂ (mem_of_getLast? hlast))
  dsimp only
  rw [update_of_ne hne]
  exact h.cut l₁ l₂ heq

theorem insert_next {b : P} {p q : Option P} (hb : b ≠ a) (hp : some b ≠ p) :
    (k.insert a p q).next (some b) = k.next (some b) := by
  dsimp only [Links.insert]
  rw [update_of_ne hp, update_of_ne (by simpa using hb)]

end

/-- The first address, from `o` on along `step`, where `go` does not hold; `none` when the fuel
does not suffice. -/
def seek (step : Option P → Option P) (go : P → Bool) : ℕ → Option P → Option (Option P)
  | 0, _ => none
  | _ + 1, none => some none
  | fuel + 1, some a => if go a then seek step go fuel (step (some a)) else some (some a)

variable {go : P → Bool} {fuel : ℕ}

section

variable (h : k.Rep (l₁ ++ l₂))
include h

theorem Rep.seek_next (hfuel : l₂.length < fuel) :
    seek k.next go fuel l₂.head? = some (l₂.dropWhile go).head? := by
  induction l₂ generalizing l₁ fuel with
  | nil =>
    obtain ⟨n, rfl⟩ := Nat.exists_eq_add_of_lt hfuel
    rfl
  | cons a l₂ ih =>
    obtain ⟨n, rfl⟩ := Nat.exists_eq_add_of_lt hfuel
    rw [length_cons, show l₂.length + 1 + n + 1 = (l₂.length + n + 1) + 1 by omega,
      head?_cons, seek, h.next]
    cases hgo : go a with
    | false => simp [hgo]
    | true =>
      rw [if_pos rfl, dropWhile_cons_of_pos hgo]
      have h' : k.Rep ((l₁ ++ [a]) ++ l₂) := by simpa using h
      exact ih h' (by omega)

theorem Rep.seek_prev (hfuel : l₁.length < fuel) :
    seek k.prev go fuel l₁.getLast? = some (l₁.reverse.dropWhile go).head? := by
  induction l₁ using reverseRecOn generalizing l₂ fuel with
  | nil =>
    obtain ⟨n, rfl⟩ := Nat.exists_eq_add_of_lt hfuel
    rfl
  | append_singleton l₁ a ih =>
    obtain ⟨n, rfl⟩ := Nat.exists_eq_add_of_lt hfuel
    have h' : k.Rep (l₁ ++ a :: l₂) := by simpa using h
    rw [length_append, length_singleton,
      show l₁.length + 1 + n + 1 = (l₁.length + n + 1) + 1 by omega, getLast?_concat, seek,
      h'.prev, reverse_concat]
    cases hgo : go a with
    | false => simp [hgo]
    | true =>
      rw [if_pos rfl, dropWhile_cons_of_pos hgo]
      exact ih h' (by omega)

theorem Rep.seek_first (hfuel : (l₁ ++ l₂).length < fuel)
    (h₁ : ∀ a ∈ l₁, go a = true) (h₂ : ∀ a ∈ l₂, go a = false) :
    seek k.next go fuel (k.next none) = some l₂.head? := by
  have hnil : k.Rep ([] ++ (l₁ ++ l₂)) := h
  rw [h.first, hnil.seek_next hfuel, dropWhile_append_of_pos h₁]
  cases l₂ with
  | nil => rfl
  | cons a l₂ => simp [h₂ a]

theorem Rep.seek_last (hfuel : (l₁ ++ l₂).length < fuel)
    (h₁ : ∀ a ∈ l₁, go a = false) (h₂ : ∀ a ∈ l₂, go a = true) :
    seek k.prev go fuel (k.prev none) = some l₁.getLast? := by
  have hall : k.Rep ((l₁ ++ l₂) ++ []) := by simpa using h
  rw [h.last, hall.seek_prev hfuel, reverse_append,
    dropWhile_append_of_pos fun a ha => h₂ a (mem_reverse.1 ha)]
  rcases eq_nil_or_concat' l₁ with rfl | ⟨l, a, rfl⟩
  · rfl
  · simp [h₁ a]

end

end Links

end Ns2
