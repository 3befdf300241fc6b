import Ns2.Lib.Machine
import Ns2.Tcp.ReassemblyHole
import Ns2.Tcp.ReassemblyRun

/-! `rcv_nxt_` over the calls of `add` and `cleartonxt` that a receiver makes. -/

namespace Ns2

open Finset

/-- The calls of `add` and `cleartonxt`. -/
inductive ReceiveOp where
  | add (sseq eseq : ℤ) (pflags rqflags : ℕ)
  | cleartonxt

namespace ReceiveOp

noncomputable def numbers : ReceiveOp → Finset ℤ
  | add sseq eseq _ _ => Ico sseq eseq
  | cleartonxt => ∅

/-- What has been added, cleared since or not. -/
def received (os : List ReceiveOp) : Set ℤ := {x | ∃ o ∈ os, x ∈ o.numbers}

theorem received_mono {os os' : List ReceiveOp} (h : os ⊆ os') : received os ⊆ received os' := by
  rintro x ⟨o, ho, hx⟩
  exact ⟨o, h ho, hx⟩

end ReceiveOp

namespace ReassemblyQueue

open Ranges ReceiveOp

def receive (s : ReassemblyQueue) : ReceiveOp → Option ReassemblyQueue
  | .add sseq eseq pflags rqflags => (s.add sseq eseq pflags rqflags).map Prod.fst
  | .cleartonxt => s.cleartonxt.map Prod.fst

def receiveAll (s : ReassemblyQueue) (os : List ReceiveOp) : Option ReassemblyQueue :=
  os.foldlM receive s

/-- What is added is not empty and not below `rcv_nxt_`. -/
def Ahead (s : ReassemblyQueue) : ReceiveOp → Prop
  | .add sseq eseq _ _ => s.rcvNxt ≤ sseq ∧ sseq < eseq
  | .cleartonxt => True

instance (s : ReassemblyQueue) : ∀ o, Decidable (s.Ahead o)
  | .add sseq eseq _ _ => inferInstanceAs (Decidable (s.rcvNxt ≤ sseq ∧ sseq < eseq))
  | .cleartonxt => inferInstanceAs (Decidable True)

/-- Each call, for the queue that the calls before it have left. -/
abbrev AllAhead (s : ReassemblyQueue) (os : List ReceiveOp) : Prop :=
  (Machine.silent receive).RunsWith Ahead s os

variable {s s' : ReassemblyQueue} {F : List ℕ} {R : Set ℤ} {rcvNxt sseq eseq : ℤ} {p : ℕ}
  {os : List ReceiveOp}

/-- `R` has been received since `rcv_nxt_` was `rcvNxt`: the queue holds it from some number on, and
`rcv_nxt_` is the first that is missing. -/
structure InSequence (rcvNxt : ℤ) (R : Set ℤ) (s : ReassemblyQueue) (F : List ℕ) : Prop extends
    Holds s F where
  kept : ∃ c, rcvNxt ≤ c ∧ c ≤ s.rcvNxt ∧ ∀ x, x ∈ Ranges.cover (F.map s.block) ↔ x ∈ R ∧ c ≤ x
  least : IsLeast {x | rcvNxt ≤ x ∧ x ∉ R} s.rcvNxt

theorem InSequence.init (rcvNxt : ℤ) : InSequence rcvNxt ∅ (init rcvNxt) [] where
  toHolds := Holds.init rcvNxt
  kept := ⟨rcvNxt, le_rfl, le_rfl, by simp⟩
  least := ⟨⟨le_rfl, Set.notMem_empty _⟩, fun _ hx => hx.1⟩

section

variable (h : InSequence rcvNxt R s F)
include h

theorem InSequence.block_received (hp : p ∈ F) :
    (∀ x, s.startseq p ≤ x → x < s.endseq p → x ∈ R) ∧ rcvNxt ≤ s.endseq p ∧ s.endseq p ∉ R := by
  obtain ⟨c, hlow, -, hkept⟩ := h.kept
  have hsub : ∀ x, s.startseq p ≤ x → x < s.endseq p → x ∈ R ∧ c ≤ x := fun x hle hlt =>
    (hkept x).1 (s.block_subset_cover hp (mem_Ico.2 ⟨hle, hlt⟩))
  have hlt : s.startseq p < s.endseq p := h.apart.nonempty _ (List.mem_map_of_mem hp)
  have hc := (hsub _ le_rfl hlt).2
  refine ⟨fun x hle hlt => (hsub x hle hlt).1, by omega, fun hmem => ?_⟩
  exact h.toHolds.endseq_not_mem hp ((hkept _).2 ⟨hmem, by omega⟩)

theorem InSequence.rcvNxt_eq (hp : p ∈ F)
    (hle : s.startseq p ≤ s.rcvNxt) : s.rcvNxt = s.endseq p := by
  obtain ⟨hblock, hlow, hnot⟩ := h.block_received hp
  apply le_antisymm
  · exact h.least.2 ⟨hlow, hnot⟩
  · by_contra hlt
    exact h.least.1.2 (hblock _ hle (not_le.1 hlt))

theorem InSequence.add (hle : s.rcvNxt ≤ sseq) (hlt : sseq < eseq) (pflags rqflags : ℕ) :
    ∃ s' flags F', s.add sseq eseq pflags rqflags = some (s', flags) ∧
      InSequence rcvNxt (R ∪ Ico sseq eseq) s' F' := by
  obtain ⟨s', flags, F', hadd, hadds⟩ := h.toHolds.add hlt pflags rqflags
  refine ⟨s', flags, F', hadd, ?_⟩
  obtain ⟨c, hlow, hc, hkept⟩ := h.kept
  have hnew : sseq = s.rcvNxt → sseq ∉ Ranges.cover (F.map s.block) := fun heq hmem =>
    h.least.1.2 (heq ▸ ((hkept _).1 hmem).1)
  have hkept' : ∀ x, x ∈ Ranges.cover (F'.map s'.block) ↔
      x ∈ R ∪ (Ico sseq eseq : Set ℤ) ∧ c ≤ x := by
    intro x
    rw [hadds.cover, mem_union, hkept, Set.mem_union, mem_coe, mem_Ico]
    constructor
    · rintro (⟨hx, hcx⟩ | hx)
      · exact ⟨Or.inl hx, hcx⟩
      · exact ⟨Or.inr hx, by omega⟩
    · rintro ⟨hx | hx, hcx⟩
      · exact Or.inl ⟨hx, hcx⟩
      · exact Or.inr hx
  have hleast : IsLeast {x | rcvNxt ≤ x ∧ x ∉ R ∪ (Ico sseq eseq : Set ℤ)} s'.rcvNxt := by
    have hbelow : ∀ y, rcvNxt ≤ y → y ∉ R ∪ (Ico sseq eseq : Set ℤ) → s.rcvNxt ≤ y :=
      fun y hy hnot => h.least.2 ⟨hy, fun hmem => hnot (Or.inl hmem)⟩
    rcases hadds.moved with hsame | ⟨p, hp, hstart, hend⟩
    · -- a block around `rcv_nxt_` would have moved it
      rw [hsame]
      refine ⟨⟨h.least.1.1, ?_⟩, fun y hy => hbelow y hy.1 hy.2⟩
      rintro (hmem | hmem)
      · exact h.least.1.2 hmem
      · have heq : sseq = s.rcvNxt := le_antisymm (mem_Ico.1 hmem).1 hle
        obtain ⟨p, hp, hstart, hend, hmoved⟩ := hadds.reached (hnew heq)
        have := hmoved (heq ▸ hstart)
        omega
    · have hblock : ∀ x, s'.startseq p ≤ x → x < s'.endseq p →
          x ∈ R ∪ (Ico sseq eseq : Set ℤ) ∧ c ≤ x := fun x hle hlt =>
        (hkept' x).1 (s'.block_subset_cover hp (mem_Ico.2 ⟨hle, hlt⟩))
      have hpp : s'.startseq p < s'.endseq p :=
        hadds.apart.nonempty _ (List.mem_map_of_mem hp)
      have hcp := (hblock _ le_rfl hpp).2
      rw [hend]
      refine ⟨⟨by omega, fun hmem => ?_⟩, fun y hy => ?_⟩
      · exact hadds.toHolds.endseq_not_mem hp ((hkept' _).2 ⟨hmem, by omega⟩)
      · by_contra hlt
        exact hy.2 (hblock y (hstart.trans (hbelow y hy.1 hy.2)) (not_le.1 hlt)).1
  have hmono : s.rcvNxt ≤ s'.rcvNxt :=
    h.least.2 ⟨hleast.1.1, fun hmem => hleast.1.2 (Or.inl hmem)⟩
  exact ⟨hadds.toHolds, ⟨c, hlow, hc.trans hmono, hkept'⟩, hleast⟩

theorem InSequence.cleartonxt :
    ∃ s' flag F', s.cleartonxt = some (s', flag) ∧ InSequence rcvNxt R s' F' := by
  obtain ⟨s', flag, F', hclear, h', hrcv, hcover⟩ := h.toHolds.clearto s.rcvNxt
  refine ⟨s', flag, F', hclear, h', ⟨s.rcvNxt, h.least.1.1, hrcv.ge, fun x => ?_⟩, ?_⟩
  · obtain ⟨c, -, hc, hkept⟩ := h.kept
    rw [hcover, mem_filter, hkept]
    constructor
    · rintro ⟨⟨hx, -⟩, hle⟩
      exact ⟨hx, hle⟩
    · rintro ⟨hx, hle⟩
      exact ⟨⟨hx, hc.trans hle⟩, hle⟩
  · rw [hrcv]
    exact h.least

theorem InSequence.receive {o : ReceiveOp} (ho : s.Ahead o) :
    ∃ s' F', s.receive o = some s' ∧ InSequence rcvNxt (R ∪ o.numbers) s' F' := by
  cases o with
  | add sseq eseq pflags rqflags =>
    obtain ⟨s', flags, F', hadd, h'⟩ := h.add ho.1 ho.2 pflags rqflags
    exact ⟨s', F', by rw [ReassemblyQueue.receive, hadd, Option.map_some], h'⟩
  | cleartonxt =>
    obtain ⟨s', flag, F', hclear, h'⟩ := h.cleartonxt
    refine ⟨s', F', by rw [ReassemblyQueue.receive, hclear, Option.map_some], ?_⟩
    simpa [numbers] using h'

theorem InSequence.receiveAll (hos : s.AllAhead os) :
    ∃ s' F', s.receiveAll os = some s' ∧ InSequence rcvNxt (R ∪ received os) s' F' := by
  induction os generalizing s F R with
  | nil => exact ⟨s, F, rfl, by simpa [received] using h⟩
  | cons o os ih =>
    obtain ⟨s₁, F₁, hstep, h₁⟩ := h.receive hos.1
    obtain ⟨s', F', hrun, h'⟩ := ih h₁ (hos.2 s₁ () (Machine.silent_step_iff.2 hstep))
    refine ⟨s', F', ?_, ?_⟩
    · rw [ReassemblyQueue.receiveAll, List.foldlM_cons, hstep]
      exact hrun
    · have hset : R ∪ received (o :: os) = R ∪ o.numbers ∪ received os := by
        ext x
        simp only [received, List.mem_cons, exists_eq_or_imp, Set.mem_union, Set.mem_ofPred_eq,
          mem_coe, or_assoc]
      rwa [hset]

end

/-- `rcv_nxt_` never decreases, is the first number that has not been received, and is the end of
the block that begins at or below it. -/
theorem rcvNxt_isLeast (rcvNxt : ℤ) {os : List ReceiveOp}
    (hos : (ReassemblyQueue.init rcvNxt).AllAhead os) :
    ∃ s F, (ReassemblyQueue.init rcvNxt).receiveAll os = some s ∧ s.fifo.Rep F ∧
      IsLeast {x | rcvNxt ≤ x ∧ x ∉ received os} s.rcvNxt ∧
      (∀ p ∈ F, s.startseq p ≤ s.rcvNxt → s.rcvNxt = s.endseq p) ∧
      ∀ os₁ os₂ s₁, os = os₁ ++ os₂ → (ReassemblyQueue.init rcvNxt).receiveAll os₁ = some s₁ →
        s₁.rcvNxt ≤ s.rcvNxt := by
  obtain ⟨s, F, hrun, h⟩ := (InSequence.init rcvNxt).receiveAll hos
  obtain ⟨L, G, hrep⟩ := h.rep
  have hleast := h.least
  rw [Set.empty_union] at hleast
  refine ⟨s, F, hrun, hrep.fifo, hleast, fun p hp => h.rcvNxt_eq hp, ?_⟩
  rintro os₁ os₂ s₁ rfl hrun₁
  obtain ⟨s₁', F₁, hrun₁', h₁⟩ := (InSequence.init rcvNxt).receiveAll
    (Machine.RunsWith.append hos).1
  obtain rfl := Option.some.inj (hrun₁.symm.trans hrun₁')
  refine h₁.least.2 ⟨hleast.1.1, fun hmem => hleast.1.2 ?_⟩
  rw [Set.empty_union] at hmem
  exact received_mono (List.subset_append_left os₁ os₂) hmem

/-- A hole, what fills it and a part of it again, and a block that bridges two others. -/
def filled : List ReceiveOp :=
  [.add 5 8 0 0, .add 10 12 0 0, .add 3 6 0 0, .cleartonxt, .add 8 11 0 0, .add 14 16 0 0,
    .cleartonxt, .add 12 15 0 0]

theorem rcvNxt_isLeast_filled :
    ∃ s F, (ReassemblyQueue.init 3).receiveAll filled = some s ∧ s.fifo.Rep F ∧
      IsLeast {x | 3 ≤ x ∧ x ∉ received filled} s.rcvNxt ∧
      (∀ p ∈ F, s.startseq p ≤ s.rcvNxt → s.rcvNxt = s.endseq p) ∧
      ∀ os₁ os₂ s₁, filled = os₁ ++ os₂ → (ReassemblyQueue.init 3).receiveAll os₁ = some s₁ →
        s₁.rcvNxt ≤ s.rcvNxt :=
  rcvNxt_isLeast 3 (by decide +kernel)

end ReassemblyQueue

end Ns2
