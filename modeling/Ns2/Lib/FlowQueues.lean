import Mathlib.Data.List.Basic

/-! Queues by flow, each first in first out: what came in for a flow is what went out for it and
what is still queued. -/

namespace Ns2

open List

namespace FlowQueues

variable {F α : Type*} [DecidableEq F] {flow : α → F} {q q' q'' : F → List α}
  {ins ins' outs outs' : List α} {f : F} {p : α}

/-- Every packet is in the queue of its flow. -/
def Housed (flow : α → F) (q : F → List α) : Prop := ∀ f, ∀ p ∈ q f, flow p = f

/-- From `q` to `q'` the packets `ins` were queued and the packets `outs` left, those of a flow in
the order in which they came. -/
def Passes (flow : α → F) (q : F → List α) (ins outs : List α) (q' : F → List α) : Prop :=
  ∀ f, q f ++ ins.filter (fun p => flow p = f) = outs.filter (fun p => flow p = f) ++ q' f

theorem Passes.refl (flow : α → F) (q : F → List α) : Passes flow q [] [] q :=
  fun f => append_nil (q f)

theorem Passes.of_eq (h : q' = q) : Passes flow q [] [] q' := h ▸ Passes.refl flow q

theorem Passes.trans (h : Passes flow q ins outs q') (h' : Passes flow q' ins' outs' q'') :
    Passes flow q (ins ++ ins') (outs ++ outs') q'' := by
  intro f
  rw [filter_append, filter_append, ← append_assoc, h f, append_assoc, h' f,
    append_assoc]

theorem Passes.push (hp : flow p = f) (hf : q' f = q f ++ [p]) (hother : ∀ g, g ≠ f → q' g = q g) :
    Passes flow q [p] [] q' := by
  intro g
  by_cases hg : g = f
  · rw [filter_cons_of_pos (by simpa using hp.trans hg.symm), hg, hf]
    rfl
  · rw [filter_cons_of_neg (by simpa [hp] using Ne.symm hg), hother g hg]
    exact append_nil (q g)

theorem Passes.pop (hp : flow p = f) (hf : q f = p :: q' f) (hother : ∀ g, g ≠ f → q' g = q g) :
    Passes flow q [] [p] q' := by
  intro g
  by_cases hg : g = f
  · rw [filter_cons_of_pos (by simpa using hp.trans hg.symm), hg, hf]
    exact append_nil _
  · rw [filter_cons_of_neg (by simpa [hp] using Ne.symm hg), hother g hg]
    exact append_nil (q g)

theorem Passes.mem (h : Passes flow q ins outs q') (hp : p ∈ q' f) :
    p ∈ q f ∨ p ∈ ins ∧ flow p = f := by
  have hmem : p ∈ q f ++ ins.filter fun p => flow p = f := h f ▸ mem_append_right _ hp
  exact (mem_append.1 hmem).imp_right fun hin => by simpa using hin

theorem Passes.housed (h : Passes flow q ins outs q') (hq : Housed flow q) : Housed flow q' :=
  fun f p hp => (h.mem hp).elim (hq f p) And.right

end FlowQueues

end Ns2
