import Ns2.LinkState.LsRouting

/-! Message histories across the wrap of the sequence numbers. A message has a true number, and carries
its lowest 32 bits; the true numbers that have been accepted are kept beside the history. -/

namespace Ns2.LinkState

/-- A message that arrives, with the number its origin has given it. -/
structure Arrival where
  msg : LsMessage
  number : ℕ
  sequenceNumber_eq : msg.sequenceNumber = number % 2 ^ 32

/-- A message history, and the true numbers of the messages it has accepted. -/
structure FreshState where
  history : LsMessageHistory
  accepted : ℤ → List ℕ

namespace FreshState

def init : FreshState := ⟨.empty, fun _ => []⟩

/-- `isNewMessage`, with the change of the history. -/
def arrive (s : FreshState) (a : Arrival) : FreshState × Bool :=
  if s.history.isNewMessage a.msg then
    ({ history := s.history.save a.msg
       accepted := Function.update s.accepted a.msg.originNodeId
        (a.number :: s.accepted a.msg.originNodeId) }, true)
  else (s, false)

/-- The message is less than the threshold away from the last one that its origin has been heard of
with. -/
def Near (s : FreshState) (a : Arrival) : Prop :=
  (∀ n ∈ s.accepted a.msg.originNodeId, n < a.number + lsWraparoundThreshold) ∧
    (s.accepted a.msg.originNodeId ≠ [] →
      ∃ n ∈ s.accepted a.msg.originNodeId, a.number < n + lsWraparoundThreshold)

/-- It is accepted exactly when its true number is new. -/
def Right (s : FreshState) (a : Arrival) : Prop :=
  (s.arrive a).2 = true ↔ ∀ n ∈ s.accepted a.msg.originNodeId, n < a.number

/-- It is not from before a wrap that an accepted message of its origin is from after. -/
def SameRound (s : FreshState) (a : Arrival) : Prop :=
  ∀ n ∈ s.accepted a.msg.originNodeId, a.number < n → a.number / 2 ^ 32 = n / 2 ^ 32

instance (s : FreshState) (a : Arrival) : Decidable (Near s a) := by
  unfold Near; infer_instance

instance (s : FreshState) (a : Arrival) : Decidable (Right s a) := by
  unfold Right; infer_instance

instance (s : FreshState) (a : Arrival) : Decidable (SameRound s a) := by
  unfold SameRound; infer_instance

/-- The history has the largest number of each origin. -/
def Latest (s : FreshState) : Prop :=
  ∀ origin, match s.history.find origin with
    | none => s.accepted origin = []
    | some old => ∃ m ∈ s.accepted origin, old = m % 2 ^ 32 ∧ ∀ n ∈ s.accepted origin, n ≤ m

end FreshState

open FreshState

/-- The messages of all origins arrive in any order. -/
def freshness : Machine FreshState Arrival Bool where
  step s a := some (s.arrive a)

variable {s : FreshState} {a : Arrival}

theorem isNewer_iff_of_round {old new : ℕ} (h₁ : old < new + lsWraparoundThreshold)
    (h₂ : new < old + lsWraparoundThreshold) :
    (isNewer (old % 2 ^ 32) (new % 2 ^ 32) = true ↔ old < new) ↔
      (new < old → new / 2 ^ 32 = old / 2 ^ 32) := by
  rw [isNewer, Bool.or_eq_true, decide_eq_true_eq, decide_eq_true_eq]
  unfold lsWraparoundThreshold at *
  rcases lt_trichotomy new old with h | rfl | h
  · omega
  · simp
  · omega

theorem arrive_snd : (s.arrive a).2 = s.history.isNewMessage a.msg := by
  unfold arrive
  split <;> simp_all

theorem latest_init : Latest init := fun _ => rfl

theorem right_iff_sameRound (hs : Latest s) (hnear : Near s a) : Right s a ↔ SameRound s a := by
  have hfind := hs a.msg.originNodeId
  rw [Right, SameRound, arrive_snd, LsMessageHistory.isNewMessage]
  rcases h : s.history.find a.msg.originNodeId with _ | old
  · rw [h] at hfind
    simp [hfind]
  · rw [h] at hfind
    obtain ⟨m, hm, rfl, hmax⟩ := hfind
    obtain ⟨n, hn, hlt⟩ := hnear.2 (List.ne_nil_of_mem hm)
    have hnm := hmax n hn
    have hround := isNewer_iff_of_round (hnear.1 m hm) (by omega)
    have hall : (∀ n ∈ s.accepted a.msg.originNodeId, n < a.number) ↔ m < a.number :=
      ⟨fun h => h m hm, fun h n hn => (hmax n hn).trans_lt h⟩
    have hrounds : (∀ n ∈ s.accepted a.msg.originNodeId, a.number < n →
        a.number / 2 ^ 32 = n / 2 ^ 32) ↔ (a.number < m → a.number / 2 ^ 32 = m / 2 ^ 32) := by
      refine ⟨fun h => h m hm, fun h n hn hlt => ?_⟩
      have := hmax n hn
      omega
    rw [hall, hrounds, ← hround, Option.all_some, a.sequenceNumber_eq]

theorem latest_arrive (hs : Latest s) (hright : Right s a) : Latest (s.arrive a).1 := by
  unfold Right at hright
  unfold arrive at hright ⊢
  split_ifs at hright ⊢ with hnew
  · have hmax := hright.1 rfl
    intro origin
    by_cases heq : origin = a.msg.originNodeId
    · subst heq
      simp only [LsMessageHistory.save, OrdMap.find_set, if_true, Function.update_self]
      refine ⟨a.number, List.mem_cons_self, a.sequenceNumber_eq, fun n hn => ?_⟩
      rcases List.mem_cons.1 hn with rfl | hn
      · exact le_refl _
      · exact (hmax n hn).le
    · have h := hs origin
      simpa only [LsMessageHistory.save, OrdMap.find_set, if_neg heq, Function.update_of_ne heq] using h
  · exact hs

/-- Every message is judged right exactly when none comes from before a wrap that its origin has
already been heard of after. -/
theorem isNewMessage_right_iff (os : List Arrival) (hnear : freshness.RunsWith Near init os) :
    freshness.RunsWith Right init os ↔ freshness.RunsWith SameRound init os := by
  refine hnear.congr (I := Latest) (fun s a hs hn => right_iff_sameRound hs hn) ?_ latest_init
  intro s a s' b hs _ hright hstep
  obtain ⟨rfl, -⟩ := Prod.mk.inj (Option.some.inj hstep)
  exact latest_arrive hs hright

/-- An LSA of node 1. -/
def arrivalOf (number : ℕ) : Arrival :=
  ⟨⟨.lsa, number % 2 ^ 32, number % 2 ^ 32, 1, .null⟩, number, rfl⟩

theorem isNewMessage_right_across_wrap :
    freshness.RunsWith Right init [arrivalOf (2 ^ 32 - 1), arrivalOf (2 ^ 32 + 1)] ↔
      freshness.RunsWith SameRound init [arrivalOf (2 ^ 32 - 1), arrivalOf (2 ^ 32 + 1)] :=
  isNewMessage_right_iff _ (by decide)

/-- An LSA that is overtaken by the one after the wrap is taken for new. -/
theorem not_isNewMessage_right : ¬∀ os, freshness.RunsWith Near init os →
    freshness.RunsWith Right init os := by
  intro h
  have hrun := h [arrivalOf (2 ^ 32 + 1), arrivalOf (2 ^ 32 - 1)] (by decide)
  revert hrun
  decide

end Ns2.LinkState
