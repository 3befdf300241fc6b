import Ns2.Tcp.ReassemblyAdd

/-! What `nexthole` finds and what `clear` leaves. -/

namespace Ns2.ReassemblyQueue

open Ranges List Option Function

variable {s : ReassemblyQueue} {F L G A B : List ℕ} {p : ℕ} {seq : ℤ}

theorem Rep.cnts_eq (h : s.Rep (A ++ B) L G) {fuel : ℕ} (hfuel : B.length < fuel) (r : ℤ × ℤ) :
    s.cnts fuel B.head? r = some (r.1 + B.length, r.2 + size (B.map s.block)) := by
  induction B generalizing A fuel r with
  | nil =>
    obtain ⟨n, rfl⟩ := Nat.exists_eq_add_of_lt hfuel
    simp [cnts]
  | cons p B ih =>
    obtain ⟨n, rfl⟩ := Nat.exists_eq_add_of_lt hfuel
    have h' : s.Rep ((A ++ [p]) ++ B) L G := by simpa using h
    rw [length_cons, show B.length + 1 + n + 1 = (B.length + n + 1) + 1 by omega,
      head?_cons, cnts, h.fifo.next, ih h' (by omega)]
    simp only [map_cons, size_cons, block, Option.some.injEq, Prod.mk.injEq, Nat.cast_add,
      Nat.cast_one]
    constructor <;> omega

theorem Rep.cnts_above (h : s.Rep (A ++ B) L G) :
    s.cnts (s.fresh + 1) B.head? (0, 0) = some (↑B.length, size (B.map s.block)) := by
  have hlen := h.length_lt
  rw [length_append] at hlen
  rw [h.cnts_eq (by omega)]
  simp

/-- The first block that does not end below `seq` gives the hole: `seq` itself when the block
begins above it, or the end of the block. -/
inductive Hole (s : ReassemblyQueue) (seq : ℤ) : List ℕ → ℤ × ℤ × ℤ → Prop
  | none : Hole s seq [] (-1, -1, -1)
  | skip {p : ℕ} {B : List ℕ} (hp : s.endseq p < seq) {r : ℤ × ℤ × ℤ} (hr : Hole s seq B r) :
    Hole s seq (p :: B) r
  | free {p : ℕ} {B : List ℕ} (hp : seq < s.startseq p) :
    Hole s seq (p :: B) (seq, (p :: B).length, size ((p :: B).map s.block))
  | last {p : ℕ} (hp : s.startseq p ≤ seq) (hp' : seq ≤ s.endseq p) :
    Hole s seq [p] (s.endseq p, -1, -1)
  | covered {p q : ℕ} {B : List ℕ} (hp : s.startseq p ≤ seq) (hp' : seq ≤ s.endseq p) :
    Hole s seq (p :: q :: B) (s.endseq p, (q :: B).length, size ((q :: B).map s.block))

theorem Rep.holeFrom (seq : ℤ) (h : s.Rep (A ++ B) L G) (hblocks : ∀ p ∈ B, s.startseq p < s.endseq p)
    {fuel : ℕ} (hfuel : B.length < fuel) :
    ∃ r, s.holeFrom seq fuel B.head? = some r ∧ Hole s seq B r := by
  induction B generalizing A fuel with
  | nil =>
    obtain ⟨n, rfl⟩ := Nat.exists_eq_add_of_lt hfuel
    exact ⟨_, rfl, Hole.none⟩
  | cons p B ih =>
    obtain ⟨n, rfl⟩ := Nat.exists_eq_add_of_lt hfuel
    have h' : s.Rep ((A ++ [p]) ++ B) L G := by simpa using h
    rw [forall_mem_cons] at hblocks
    rw [length_cons, show B.length + 1 + n + 1 = (B.length + n + 1) + 1 by omega,
      head?_cons, ReassemblyQueue.holeFrom]
    by_cases hfree : s.startseq p > seq
    · have hcnts := h.cnts_above
      rw [head?_cons] at hcnts
      rw [if_pos hfree, hcnts, map_some]
      exact ⟨_, rfl, Hole.free hfree⟩
    · rw [if_neg hfree]
      by_cases hcov : s.startseq p ≤ seq ∧ s.endseq p ≥ seq
      · rw [if_pos hcov, h.fifo.next]
        cases B with
        | nil => exact ⟨_, rfl, Hole.last hcov.1 hcov.2⟩
        | cons q B =>
          have hcnts := h'.cnts_above
          rw [head?_cons] at hcnts
          simp only [head?_cons, hcnts, map_some]
          exact ⟨_, rfl, Hole.covered hcov.1 hcov.2⟩
      · rw [if_neg hcov, h.fifo.next]
        obtain ⟨r, hr, hhole⟩ := ih h' hblocks.2 (show B.length < B.length + n + 1 by omega)
        exact ⟨r, hr, Hole.skip (by omega) hhole⟩

theorem Holds.nexthole (h : s.Holds F) (seq : ℤ) :
    ∃ s' r, s.nexthole seq = some (s', r) ∧ Hole s' seq F r ∧ s'.Holds F ∧ s'.block = s.block ∧
      s'.rcvNxt = s.rcvNxt := by
  obtain ⟨L, G, hrep⟩ := h.rep
  have hrep' : Rep { s with hint := s.fifo.next none } ([] ++ F) L G := hrep.congr rfl rfl rfl rfl
  have hblocks : ∀ p ∈ F, s.startseq p < s.endseq p := fun p hp =>
    h.apart.nonempty (s.block p) (mem_map_of_mem hp)
  obtain ⟨r, hr, hhole⟩ := hrep'.holeFrom seq hblocks hrep.length_lt
  rw [← hrep.fifo.first] at hr
  refine ⟨_, r, ?_, hhole, ⟨⟨L, G, hrep'⟩, h.apart, h.total⟩, rfl, rfl⟩
  rw [ReassemblyQueue.nexthole]
  dsimp only
  rw [hr, map_some]

theorem Holds.endseq_not_mem (h : s.Holds F) (hp : p ∈ F) :
    s.endseq p ∉ Ranges.cover (F.map s.block) :=
  h.apart.right_not_mem (mem_map_of_mem hp)

theorem clearHead_spec {fuel : ℕ} (hfuel : F.length < fuel) (hfirst : s.fifo.next none = F.head?)
    (hF : ∀ l₁ p l₂, F = l₁ ++ p :: l₂ → s.fifo.next (some p) = l₂.head?)
    (hfree : s.freelist = G.head?)
    (hG : ∀ l₁ p l₂, G = l₁ ++ p :: l₂ → s.fifo.next (some p) = l₂.head?)
    (hnodup : (F ++ G).Nodup) (halloc : ∀ p ∈ F ++ G, p < s.fresh) :
    ∃ s' G', clearHead fuel s = some s' ∧ s'.fifo.next none = none ∧ s'.lifo = s.lifo ∧
      s'.rcvNxt = s.rcvNxt ∧ s'.freelist = G'.head? ∧
      (∀ l₁ p l₂, G' = l₁ ++ p :: l₂ → s'.fifo.next (some p) = l₂.head?) ∧ G'.Nodup ∧
      ∀ p ∈ G', p < s'.fresh := by
  induction F generalizing s G fuel with
  | nil =>
    obtain ⟨n, rfl⟩ := Nat.exists_eq_add_of_lt hfuel
    refine ⟨s, G, ?_, hfirst, rfl, rfl, hfree, hG, hnodup, halloc⟩
    rw [length_nil, Nat.zero_add, clearHead, hfirst, head?_nil]
  | cons p F ih =>
    obtain ⟨n, rfl⟩ := Nat.exists_eq_add_of_lt hfuel
    rw [head?_cons] at hfirst
    have hnext : s.fifo.next (some p) = F.head? := hF [] p F rfl
    have hmiddle : (F ++ p :: G).Nodup ∧ p ∉ F ++ G := by
      rw [cons_append, nodup_cons] at hnodup
      exact ⟨nodup_middle.2 (nodup_cons.2 hnodup), hnodup.1⟩
    rw [mem_append, not_or] at hmiddle
    have hstep : clearHead (F.length + n + 1 + 1) s = clearHead (F.length + n + 1)
        (ReassemblyQueue.deleteseginfo p { s with
          fifo := { s.fifo with next := Function.update s.fifo.next none F.head? } }) := by
      rw [clearHead, hfirst]
      dsimp only
      rw [hnext]
    rw [length_cons, show F.length + 1 + n + 1 = F.length + n + 1 + 1 by omega, hstep]
    have hother : ∀ q, q ≠ p → (ReassemblyQueue.deleteseginfo p { s with
        fifo := { s.fifo with next := Function.update s.fifo.next none F.head? } }).fifo.next
          (some q) = s.fifo.next (some q) := by
      intro q hq
      change Function.update (Function.update s.fifo.next none F.head?) (some p) s.freelist (some q)
        = _
      rw [update_of_ne (by simpa using hq), update_of_ne (by simp)]
    obtain ⟨hmiddle, hpF, hpG⟩ := hmiddle
    refine ih (G := p :: G) (by omega) ?_ ?_ rfl ?_ hmiddle ?_
    · change Function.update (Function.update s.fifo.next none F.head?) (some p) s.freelist none = _
      rw [update_of_ne (by simp), update_self]
    · intro l₁ q l₂ heq
      rw [hother q (by rintro rfl; exact hpF (by simp [heq]))]
      exact hF (p :: l₁) q l₂ (congrArg (p :: ·) heq)
    · intro l₁ q l₂ heq
      cases l₁ with
      | nil =>
        obtain ⟨rfl, rfl⟩ : p = q ∧ G = l₂ := List.cons.inj heq
        rw [← hfree]
        exact update_self ..
      | cons g l₁ =>
        obtain ⟨rfl, htail⟩ : p = g ∧ G = l₁ ++ q :: l₂ := List.cons.inj heq
        rw [hother q (by rintro rfl; exact hpG (by simp [htail]))]
        exact hG l₁ q l₂ htail
    · intro q hq
      exact halloc q (perm_middle.subset hq)

theorem Holds.clear (h : s.Holds F) :
    ∃ s', s.clear = some s' ∧ s'.Holds [] ∧ s'.rcvNxt = s.rcvNxt := by
  obtain ⟨L, G, hrep⟩ := h.rep
  obtain ⟨s', G', hclear, hnext, hlifo, hrcv, hfree, hchain, hnodup, halloc⟩ :=
    clearHead_spec (s := { s with
      fifo := { s.fifo with prev := Function.update s.fifo.prev none none }
      lifo := ⟨Function.update s.lifo.next none none, Function.update s.lifo.prev none none⟩
      hint := none }) hrep.length_lt hrep.fifo.first
      (fun l₁ p l₂ heq => by subst heq; exact hrep.fifo.next) hrep.freelist hrep.chain hrep.nodup
      hrep.allocated
  refine ⟨{ s' with
    fifo := { s'.fifo with prev := Function.update s'.fifo.prev none none }
    total := 0 }, ?_, ⟨⟨[], G', ?_⟩, apart_nil, rfl⟩, hrcv⟩
  · rw [ReassemblyQueue.clear]
    dsimp only
    rw [hclear, map_some]
  · have hset : ∀ f : Option ℕ → Option ℕ, Function.update f none none none = none := fun f =>
      update_self ..
    refine ⟨Links.Rep.nil hnext (hset s'.fifo.prev), ?_, Perm.nil, hfree, hchain, hnodup, halloc⟩
    dsimp only
    rw [hlifo]
    exact Links.Rep.nil (hset s.lifo.next) (hset s.lifo.prev)

end Ns2.ReassemblyQueue
