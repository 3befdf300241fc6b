import Mathlib.Data.List.Rotate
import Ns2.Lib.DeficitRound

/-! A ring of flows that are served in turn: the flow at the head is served and goes to the end or
leaves, and a new flow joins at the end. Between two turns of a flow every other one that stays has
one turn. -/

namespace Ns2

namespace RoundRobin

open List

variable {F : Type*}

/-- From the ring `r` to the ring `r'`, with the flow that is served. -/
inductive Turn : List F → Option F → List F → Prop
  | stay (r : List F) : Turn r none r
  | join {r : List F} {f : F} (hf : f ∉ r) : Turn r none (r ++ [f])
  | pass (f : F) (t : List F) : Turn (f :: t) (some f) (t ++ [f])
  | leave (f : F) (t : List F) : Turn (f :: t) (some f) t

/-- Turns in which the flows of `K` stay on the ring, with the flows that are served. -/
inductive Turns (K : Set F) : List F → List F → List F → Prop
  | nil {r : List F} (hK : ∀ k ∈ K, k ∈ r) : Turns K r [] r
  | cons {r r' r'' : List F} {e : Option F} {es : List F} (hK : ∀ k ∈ K, k ∈ r) (h : Turn r e r')
    (hs : Turns K r' es r'') : Turns K r (e.toList ++ es) r''

variable {K : Set F} {r r' t : List F} {e : Option F} {es : List F} {f b x : F}

theorem Turn.nodup (h : Turn r e r') (hr : r.Nodup) : r'.Nodup := by
  cases h with
  | stay => exact hr
  | join hf => exact nodup_append.2 ⟨hr, nodup_singleton _, fun a ha c hc heq =>
      hf (mem_singleton.1 hc ▸ heq ▸ ha)⟩
  | pass f t => exact (isRotated_concat f t).nodup_iff.2 hr
  | leave f t => exact (nodup_cons.1 hr).2

theorem Turns.nodup (h : Turns K r es r') (hr : r.Nodup) : r'.Nodup := by
  induction h with
  | nil => exact hr
  | cons _ h _ ih => exact ih (h.nodup hr)

theorem Turns.mem (h : Turns K r es r') : (∀ k ∈ K, k ∈ r) ∧ ∀ k ∈ K, k ∈ r' := by
  induction h with
  | nil hK => exact ⟨hK, hK⟩
  | cons hK _ _ ih => exact ⟨hK, ih.2⟩

theorem Turn.last (h : Turn r e r') (hr : r.Nodup) (hb : e = some b ∨ b ∉ r) (hb' : b ∈ r') :
    ∃ t, r' = t ++ [b] := by
  cases h with
  | stay =>
    rcases hb with heq | hnot
    · cases heq
    · exact absurd hb' hnot
  | @join _ f =>
    rcases hb with heq | hnot
    · cases heq
    · obtain rfl : b = f := mem_singleton.1 ((mem_append.1 hb').resolve_left hnot)
      exact ⟨r, rfl⟩
  | pass f t =>
    rcases hb with heq | hnot
    · obtain rfl := Option.some.inj heq
      exact ⟨t, rfl⟩
    · rw [mem_cons] at hnot
      exact absurd ((mem_append.1 hb').symm.imp_left mem_singleton.1) hnot
  | leave f t =>
    rcases hb with heq | hnot
    · obtain rfl := Option.some.inj heq
      exact absurd hb' (nodup_cons.1 hr).1
    · exact absurd (mem_cons_of_mem f hb') hnot

theorem Turn.pair (h : Turn r e r') (hpair : [x, b].Sublist r) (hx : e ≠ some x) :
    [x, b].Sublist r' := by
  cases h with
  | stay => exact hpair
  | join => exact hpair.trans (sublist_append_left _ _)
  | pass f t =>
    rcases sublist_cons_iff.1 hpair with hsub | ⟨l, heq, -⟩
    · exact hsub.trans (sublist_append_left _ _)
    · exact absurd (congrArg some (List.cons.inj heq).1.symm) hx
  | leave f t =>
    rcases sublist_cons_iff.1 hpair with hsub | ⟨l, heq, -⟩
    · exact hsub
    · exact absurd (congrArg some (List.cons.inj heq).1.symm) hx

theorem Turn.pair_of_served (h : Turn r (some x) r') (hr : r.Nodup) (hxb : x ≠ b) (hb : b ∈ r)
    (hx : x ∈ r') : [b, x].Sublist r' := by
  cases h with
  | pass f t => exact DeficitRound.pair_concat ((mem_cons.1 hb).resolve_left hxb.symm)
  | leave f t => exact absurd hx (nodup_cons.1 hr).1

theorem Turns.not_served (h : Turns K r es r') (hr : r.Nodup) (hpair : [b, x].Sublist r)
    (hb : b ∉ es) : [b, x].Sublist r' ∧ x ∉ es := by
  induction h with
  | nil => exact ⟨hpair, not_mem_nil⟩
  | @cons r r₁ r' e es _ h _ ih =>
    rw [mem_append, not_or] at hb
    have hbe : e ≠ some b := fun heq => hb.1 (heq ▸ mem_singleton_self b)
    obtain ⟨hlast, hes⟩ := ih (h.nodup hr) (h.pair hpair hbe) hb.2
    refine ⟨hlast, fun hx => (mem_append.1 hx).elim (fun hxe => ?_) hes⟩
    obtain rfl : e = some x := by simpa using hxe
    -- the head is served, and `x` is behind `b`
    have hhead : ∃ t, r = x :: t := by
      cases h with
      | pass => exact ⟨_, rfl⟩
      | leave => exact ⟨_, rfl⟩
    obtain ⟨t, rfl⟩ := hhead
    rcases sublist_cons_iff.1 hpair with hsub | ⟨l, heq, -⟩
    · exact (nodup_cons.1 hr).1 (hsub.subset (by simp))
    · exact hbe (congrArg some (List.cons.inj heq).1.symm)

/-- While `b` is not served, a flow before it is served at most once, and then comes after it. -/
theorem Turns.served_once [DecidableEq F] (h : Turns {b, x} r es r') (hr : r.Nodup) (hxb : x ≠ b)
    (hpair : [x, b].Sublist r) (hb : b ∉ es) :
    [x, b].Sublist r' ∨ [b, x].Sublist r' ∧ es.count x = 1 := by
  induction h with
  | nil => exact Or.inl hpair
  | @cons r r₁ r' e es hK h hs ih =>
    rw [mem_append, not_or] at hb
    by_cases hxe : e = some x
    · subst hxe
      have hbehind := h.pair_of_served hr hxb (hK b (Or.inl rfl)) (hs.mem.1 x (Or.inr rfl))
      obtain ⟨hlast, hes⟩ := hs.not_served (h.nodup hr) hbehind hb.2
      refine Or.inr ⟨hlast, ?_⟩
      rw [count_append, count_eq_zero_of_not_mem hes]
      simp
    · refine (ih (h.nodup hr) (h.pair hpair hxe) hb.2).imp_right fun ⟨hlast, hcount⟩ => ⟨hlast, ?_⟩
      have hnone : x ∉ e.toList := fun hx => hxe (by simpa using hx)
      rw [count_append, count_eq_zero_of_not_mem hnone, hcount]

/-- From the end of the ring to its head, `b` waits for one turn of every flow that stays. -/
theorem Turns.count_eq_one [DecidableEq F] (h : Turns {b, x} (t ++ [b]) es (b :: r'))
    (hr : (t ++ [b]).Nodup) (hxb : x ≠ b) (hb : b ∉ es) : es.count x = 1 := by
  have hx : x ∈ t := by
    have hmem := h.mem.1 x (Or.inr rfl)
    exact (mem_append.1 hmem).resolve_right fun heq => hxb (mem_singleton.1 heq)
  rcases h.served_once hr hxb (DeficitRound.pair_concat hx) hb with hlast | ⟨-, hcount⟩
  · exact absurd hlast (DeficitRound.not_pair_cons (h.nodup hr) hxb.symm)
  · exact hcount

end RoundRobin

end Ns2
