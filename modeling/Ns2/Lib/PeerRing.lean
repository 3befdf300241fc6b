import Mathlib.Data.List.Perm.Basic
import Ns2.Lib.TailQueue

/-! Circular lists with a pointer to the next cell only, and the loop that goes around one. -/

namespace Ns2

open List Function

namespace PeerRing

open TailQueue

variable {P σ : Type*} {n n' : P → Option P} {o h : Option P} {l l₁ l₂ : List P} {a p : P}

/-- From `o` the pointers lead through the cells `l` back to `o`. -/
structure Ring (n : P → Option P) (o : Option P) (l : List P) : Prop where
  nodup : l.Nodup
  head : o = l.head?
  seg : Seg n o l o

theorem Ring.nil : Ring n none [] := ⟨nodup_nil, rfl, rfl⟩

theorem Ring.eq_nil_iff (hr : Ring n o l) : o = none ↔ l = [] := by
  rw [hr.head, head?_eq_none_iff]

theorem Ring.from (hr : Ring n o l) (ha : a ∈ l) :
    ∃ t, (a :: t).Perm l ∧ Ring n (some a) (a :: t) := by
  obtain ⟨l₁, l₂, rfl⟩ := append_of_mem ha
  obtain ⟨m, h₁, rfl, h₂⟩ := seg_append.1 hr.seg
  have hperm : (a :: (l₂ ++ l₁)).Perm (l₁ ++ a :: l₂) :=
    (perm_append_comm.cons a).trans perm_middle.symm
  exact ⟨l₂ ++ l₁, hperm, hperm.nodup_iff.2 hr.nodup, rfl, rfl, seg_append.2 ⟨o, h₂, h₁⟩⟩

theorem Ring.turn (hr : Ring n o l) (ha : a ∈ l) : ∃ l', l'.Perm l ∧ Ring n (n a) l' := by
  obtain ⟨t, hperm, hring⟩ := hr.from ha
  have hrotate : (t ++ [a]).Perm (a :: t) := perm_append_singleton a t
  have hseg : Seg n (n a) (t ++ [a]) (n a) := seg_append.2 ⟨some a, hring.seg.2, rfl, rfl⟩
  refine ⟨t ++ [a], hrotate.trans hperm, hrotate.nodup_iff.2 hring.nodup, ?_, hseg⟩
  cases t with
  | nil => exact hseg.1
  | cons b t => exact hseg.1

theorem Ring.next_mem (hr : Ring n o l) (ha : a ∈ l) : ∃ b ∈ l, n a = some b := by
  obtain ⟨l', hperm, hring⟩ := hr.turn ha
  cases l' with
  | nil => exact absurd (hperm.mem_iff.2 ha) not_mem_nil
  | cons b t => exact ⟨b, hperm.mem_iff.1 mem_cons_self, hring.head⟩

section

variable [DecidableEq P]

theorem Ring.update (hr : Ring n o l) (ha : a ∉ l) (v : Option P) :
    Ring (Function.update n a v) o l :=
  ⟨hr.nodup, hr.head, (seg_update ha).2 hr.seg⟩

theorem Ring.alone (n : P → Option P) (p : P) :
    Ring (Function.update n p (some p)) (some p) [p] :=
  ⟨nodup_singleton p, rfl, rfl, update_self ..⟩

theorem Ring.insert (hr : Ring n (some a) (a :: l)) (hp : p ∉ a :: l) :
    Ring (Function.update (Function.update n p (n a)) a (some p)) (some a) (a :: p :: l) := by
  have hpa : p ≠ a := fun heq => hp (heq ▸ mem_cons_self)
  have ha : a ∉ l := (nodup_cons.1 hr.nodup).1
  have hpl : p ∉ l := fun hmem => hp (mem_cons_of_mem a hmem)
  have hperm : (a :: p :: l).Perm (p :: a :: l) := Perm.swap p a l
  refine ⟨hperm.nodup_iff.2 (nodup_cons.2 ⟨hp, hr.nodup⟩), rfl, rfl, ?_, ?_⟩
  · exact update_self ..
  · have hnext : Function.update (Function.update n p (n a)) a (some p) p = n a := by
      rw [update_of_ne hpa, update_self]
    rw [hnext]
    exact (seg_update ha).2 ((seg_update hpl).2 hr.seg.2)

/-- What a loop over the cells does: `visit` at a cell, the end at the cell `head`, and `null` at a
null pointer. -/
structure Tour (P σ : Type*) where
  next : P → Option P
  head : Option P
  visit : P → σ → Bool × σ
  null : σ → Option (Bool × σ)

/-- The loop from `cl` on until `visit` has found what it looks for or it comes to `head`. -/
def Tour.around (k : Tour P σ) (cl : P) (st : σ) : Option (Bool × σ) :=
  if (k.visit cl st).1 then some (k.visit cl st)
  else
    match k.next cl with
    | none => k.null (k.visit cl st).2
    | some next =>
      if some next = k.head then some (k.visit cl st) else k |>.around next (k.visit cl st).2
  partial_fixpoint

/-- The visits to the cells of a list until one has found what it looks for. -/
def visits (visit : P → σ → Bool × σ) : List P → σ → Bool × σ
  | [], st => (false, st)
  | a :: l, st => if (visit a st).1 then visit a st else visits visit l (visit a st).2

variable {visit : P → σ → Bool × σ} {null : σ → Option (Bool × σ)} {st : σ}

theorem around_seg (hseg : Seg n (some a) (a :: l) h) (hl : h ∉ l.map some) (hsome : h ≠ none) :
    Tour.around ⟨n, h, visit, null⟩ a st = some (visits visit (a :: l) st) := by
  induction l generalizing a st with
  | nil =>
    obtain ⟨b, rfl⟩ := Option.ne_none_iff_exists'.1 hsome
    have hnext : n a = some b := hseg.2
    rw [Tour.around, visits]
    split_ifs with hfound
    · rfl
    · have hfalse : (visit a st).1 = false := Bool.eq_false_iff.2 hfound
      simp only [hnext, if_pos, visits]
      exact congrArg some (Prod.ext hfalse rfl)
  | cons b l ih =>
    have hnext : n a = some b := hseg.2.1
    rw [map_cons, mem_cons, not_or] at hl
    rw [Tour.around, visits]
    split_ifs with hfound
    · rfl
    · simp only [hnext, if_neg (Ne.symm hl.1)]
      exact ih ⟨rfl, hseg.2.2⟩ hl.2

theorem Ring.around (hr : Ring n (some a) (a :: l)) :
    Tour.around ⟨n, some a, visit, null⟩ a st = some (visits visit (a :: l) st) := by
  refine around_seg hr.seg ?_ (Option.some_ne_none a)
  rw [mem_map]
  rintro ⟨b, hb, heq⟩
  obtain rfl := Option.some.inj heq
  exact (nodup_cons.1 hr.nodup).1 hb

end

end PeerRing

end Ns2
