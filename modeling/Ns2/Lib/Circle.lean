import Mathlib.Data.List.Cycle

/-! Circular doubly linked lists without a sentinel: a cell alone on the list is its own
neighbour. The list read from one of its cells is known up to rotation. -/

namespace Ns2

open List Function

structure Circle (P : Type*) where
  next : P → Option P
  prev : P → Option P

namespace Circle

variable {P : Type*}

def Linked (k : Circle P) (p n : P) : Prop := k.next p = some n ∧ k.prev n = some p

/-- The cells of the list in order, from any of them. -/
structure Rep (k : Circle P) (l : List P) : Prop where
  nodup : l.Nodup
  chain : Cycle.Chain k.Linked (l : Cycle P)

variable {k k' : Circle P} {l l' t : List P} {a h x : P}

theorem Rep.nil : k.Rep [] := ⟨nodup_nil, Cycle.Chain.nil _⟩

theorem Rep.rotate (hk : k.Rep l) (hl : l.IsRotated l') : k.Rep l' := by
  refine ⟨hl.nodup_iff.1 hk.nodup, ?_⟩
  rw [← Cycle.coe_eq_coe.2 hl]
  exact hk.chain

theorem rep_cons_iff : k.Rep (a :: t) ↔ (a :: t).Nodup ∧ IsChain k.Linked (a :: t ++ [a]) := by
  constructor
  · intro hk
    exact ⟨hk.nodup, (Cycle.chain_coe_cons _ _ _).1 hk.chain⟩
  · rintro ⟨hnodup, hchain⟩
    exact ⟨hnodup, (Cycle.chain_coe_cons _ _ _).2 hchain⟩

theorem Rep.next (hk : k.Rep (a :: t)) : k.next a = (t ++ [a]).head? := by
  have hchain := (rep_cons_iff.1 hk).2
  cases t with
  | nil => exact (isChain_pair.1 hchain).1
  | cons b t => exact (isChain_cons_cons.1 hchain).1.1

theorem Rep.linked_last {p : P} (hk : k.Rep (a :: t)) (hp : (a :: t).getLast? = some p) :
    k.Linked p a :=
  (isChain_append.1 (rep_cons_iff.1 hk).2).2.2 p hp a rfl

theorem Rep.isChain (hk : k.Rep l) : IsChain k.Linked l := by
  cases l with
  | nil => exact isChain_nil
  | cons a t => exact (isChain_append.1 (rep_cons_iff.1 hk).2).1

theorem Rep.next_of_append {l₁ l₂ : List P} {p : P} (hk : k.Rep (l₁ ++ p :: l₂)) (h₂ : l₂ ≠ []) :
    k.next p = l₂.head? := by
  obtain ⟨n, l₂, rfl⟩ := exists_cons_of_ne_nil h₂
  exact (isChain_iff_forall_rel_of_append_cons_cons.1 hk.isChain rfl).1

theorem isChain_frame (hl : l.Nodup) (hchain : IsChain k.Linked l)
    (hnext : ∀ p ∈ l, l.getLast? ≠ some p → k'.next p = k.next p)
    (hprev : ∀ n ∈ l, l.head? ≠ some n → k'.prev n = k.prev n) : IsChain k'.Linked l := by
  rw [isChain_iff_forall_rel_of_append_cons_cons] at hchain ⊢
  intro p n l₁ l₂ heq
  subst heq
  have hlink := hchain rfl
  have hcut := nodup_append.1 hl
  have hp : p ∉ n :: l₂ := (nodup_cons.1 hcut.2.1).1
  constructor
  · rw [hnext p (by simp), hlink.1]
    intro hlast
    rw [getLast?_append_cons, getLast?_cons_cons] at hlast
    exact hp (mem_of_getLast? hlast)
  · rw [hprev n (by simp), hlink.2]
    intro hhead
    cases l₁ with
    | nil => exact hp (Option.some.inj hhead ▸ mem_cons_self)
    | cons c l₁ => exact hcut.2.2 c mem_cons_self n (by simp) (Option.some.inj hhead)

variable [DecidableEq P]

def alone (x : P) (k : Circle P) : Circle P :=
  ⟨Function.update k.next x (some x), Function.update k.prev x (some x)⟩

/-- Link a cell before `h`. -/
def insert (x h : P) (k : Circle P) : Option (Circle P) :=
  let k : Circle P := { k with prev := Function.update k.prev x (k.prev h) }
  let k : Circle P := { k with next := Function.update k.next x (some h) }
  (k.prev h).map fun e =>
    { next := Function.update k.next e (some x), prev := Function.update k.prev h (some x) }

/-- Unlink a cell that is not alone. -/
def remove (a : P) (k : Circle P) : Option (Circle P) :=
  (k.next a).bind fun n =>
    let k : Circle P := { k with prev := Function.update k.prev n (k.prev a) }
    (k.prev a).map fun p => { k with next := Function.update k.next p (k.next a) }

theorem Rep.alone (x : P) (k : Circle P) : (k.alone x).Rep [x] :=
  rep_cons_iff.2 ⟨nodup_singleton x,
    isChain_pair.2 ⟨update_self _ _ _, update_self _ _ _⟩⟩

theorem Rep.insert (hk : k.Rep (h :: t)) (hx : x ∉ h :: t) :
    ∃ k', k.insert x h = some k' ∧ k'.Rep (h :: (t ++ [x])) := by
  obtain ⟨u, e, heq⟩ := (eq_nil_or_concat' (h :: t)).resolve_left (cons_ne_nil h t)
  have hlast : (h :: t).getLast? = some e := by rw [heq, getLast?_concat]
  have hlink := hk.linked_last hlast
  have he : e ≠ x := fun hex => hx (hex ▸ mem_of_getLast? hlast)
  have hh : h ≠ x := fun hhx => hx (hhx ▸ mem_cons_self)
  refine ⟨⟨Function.update (Function.update k.next x (some h)) e (some x),
    Function.update (Function.update k.prev x (some e)) h (some x)⟩, ?_, ?_⟩
  · simp only [Circle.insert, update_of_ne hh, hlink.2, Option.map_some]
  · refine rep_cons_iff.2 ⟨?_, ?_⟩
    · rw [← cons_append, nodup_append]
      refine ⟨hk.nodup, nodup_singleton x, fun a ha b hb => ?_⟩
      rw [mem_singleton.1 hb]
      exact fun hax => hx (hax ▸ ha)
    · rw [← cons_append, append_assoc, isChain_append]
      refine ⟨?_, ?_, ?_⟩
      · -- between neighbours of the old list nothing changes
        refine isChain_frame hk.nodup hk.isChain ?_ ?_
        · intro p hp hpe
          rw [hlast] at hpe
          have hpx : p ≠ x := fun hpx => hx (hpx ▸ hp)
          dsimp only
          rw [update_of_ne (fun hpe' => hpe (congrArg some hpe'.symm)),
            update_of_ne hpx]
        · intro n hn hne
          have hnx : n ≠ x := fun hnx => hx (hnx ▸ hn)
          dsimp only
          rw [update_of_ne (fun hne' => hne (congrArg some hne'.symm)),
            update_of_ne hnx]
      · refine isChain_pair.2 ⟨?_, update_self _ _ _⟩
        dsimp only
        rw [update_of_ne he.symm, update_self]
      · intro p hp n hn
        obtain rfl : e = p := Option.some.inj (hlast.symm.trans hp)
        obtain rfl : x = n := Option.some.inj hn
        refine ⟨update_self _ _ _, ?_⟩
        dsimp only
        rw [update_of_ne hh.symm, update_self]

theorem Rep.remove (hk : k.Rep (a :: t)) (ht : t ≠ []) :
    ∃ k', k.remove a = some k' ∧ k'.Rep t ∧ k'.next a = t.head? := by
  obtain ⟨n, t', rfl⟩ := exists_cons_of_ne_nil ht
  obtain ⟨u, e, heq⟩ := (eq_nil_or_concat' (n :: t')).resolve_left ht
  have hlast : (n :: t').getLast? = some e := by rw [heq, getLast?_concat]
  have hnext : k.next a = some n := hk.next
  have hprev : k.prev a = some e := (hk.linked_last (by rw [getLast?_cons_cons, hlast])).2
  have ha := (nodup_cons.1 hk.nodup).1
  have han : a ≠ n := fun h => ha (h ▸ mem_cons_self)
  have hae : a ≠ e := fun h => ha (h ▸ mem_of_getLast? hlast)
  refine ⟨⟨Function.update k.next e (some n), Function.update k.prev n (some e)⟩, ?_, ?_, ?_⟩
  · simp only [Circle.remove, hnext, hprev, Option.bind_some, update_of_ne han,
      Option.map_some]
  · have hnodup := (nodup_cons.1 hk.nodup).2
    refine rep_cons_iff.2 ⟨hnodup, isChain_append.2 ⟨?_, isChain_singleton n, ?_⟩⟩
    · refine isChain_frame hnodup (isChain_cons_cons.1 hk.isChain).2 ?_ ?_
      · intro p hp hpe
        rw [hlast] at hpe
        exact update_of_ne (fun hpe' => hpe (congrArg some hpe'.symm)) _ _
      · intro m hm hmn
        exact update_of_ne (fun hmn' => hmn (congrArg some hmn'.symm)) _ _
    · intro p hp m hm
      obtain rfl : e = p := Option.some.inj (hlast.symm.trans hp)
      obtain rfl : n = m := Option.some.inj hm
      exact ⟨update_self _ _ _, update_self _ _ _⟩
  · dsimp only
    rw [update_of_ne hae, hnext]
    rfl

end Circle

end Ns2
