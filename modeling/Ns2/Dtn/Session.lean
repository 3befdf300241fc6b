import Mathlib.Data.Finset.Card
import Ns2.Dtn.EpidemicLists
import Ns2.Lib.Machine

/-! A whole session: its first list is not read, and the buffers do not become the union of the two. -/

namespace Ns2

namespace EpidemicRouting

open List Function

inductive Party where
  | a
  | b
deriving DecidableEq

def Party.other : Party → Party
  | a => b
  | b => a

/-- The two agents, and the packets under way with their receivers. -/
abbrev Network := Flight (Party → Agent) (Party × Packet)

def contact (A B : Agent) : Party → Agent
  | .a => A
  | .b => B

@[simp] theorem contact_b (A B : Agent) : contact A B .b = B := rfl

/-- A packet is received, and what it triggers is on the way to the other agent. -/
def recvAt (callees : Callees) (s : Party → Agent) (m : Party × Packet) :
    Option ((Party → Agent) × List (Party × Packet)) :=
  (recvPacket callees (s m.1) m.2).map fun r =>
    (Function.update s m.1 r.1, r.2.map fun p => (m.1.other, p))

/-- The agents have just met: the one with the higher rule opens the session. -/
def start (A B : Agent) : Option Network :=
  (if A.rule > B.rule then initSession B.name B.region A else some []).bind fun toB =>
    (if B.rule > A.rule then initSession A.name A.region B else some []).map fun toA =>
      ⟨contact A B, toB.map (fun p => (.b, p)) ++ toA.map fun p => (.a, p)⟩

/-- Both buffers hold the union of the initial ones. -/
def Merged (A B : Agent) (s : Party → Agent) : Prop :=
  ∀ p id, id ∈ (s p).ids ↔ id ∈ A.ids ∨ id ∈ B.ids

/-- What the session takes for granted. -/
structure Meeting (A B : Agent) : Prop where
  rule : B.rule < A.rule
  wf : ∀ p, WfAgent (contact A B p)
  met : ∀ p, (contact A B p.other).name ∈ (contact A B p).neighbors
  room : ∀ p, ((A.ids ++ B.ids).toFinset.card : ℤ) ≤ (contact A B p).maxBundlesInLocalBuffer
  remote : ∀ s ∈ A.bundleStoreList ++ B.bundleStoreList, ∀ p,
    isLocal (contact A B p) s.b = false

variable {A B : Agent}

def offer (A : Agent) : Packet := .c1 (A.newBundle (idsText A.ids))

theorem start_eq (h : Meeting A B) {f : Network} (hf : start A B = some f) :
    f = ⟨contact A B, [(.b, offer A)]⟩ := by
  rw [start, if_pos h.rule, if_neg (Nat.lt_asymm h.rule)] at hf
  obtain ⟨out, hout, hf⟩ := Option.bind_eq_some_iff.1 hf
  obtain rfl := (h.wf .a).initSession_eq hout
  exact (Option.some.inj hf).symm

/-- The first list is under way for ever. -/
theorem Meeting.not_settles (h : Meeting A B) (callees : Callees) {f : Network}
    (hf : start A B = some f) {Q : (Party → Agent) → Prop} : ¬f.Settles (recvAt callees) Q := by
  obtain rfl := start_eq h hf
  have hoffer : recvPacket callees B (offer A) = none :=
    recvPacket_eq_none callees (h.met .b) (h.wf .a).nul_not_mem mem_cons_self
  have hnone : recvAt callees (contact A B) (.b, offer A) = none := by
    rw [recvAt, contact_b, hoffer]
    rfl
  exact Flight.not_settles mem_cons_self hnone

/-- Whatever the two buffers hold, the session does not come to an end with both merged. -/
theorem session_never_merges (callees : Callees) (h : Meeting A B) :
    ¬∃ f, start A B = some f ∧ f.Settles (recvAt callees) (Merged A B) :=
  fun ⟨_, hf, hsettles⟩ => h.not_settles callees hf hsettles

def region : List Char := ['R', 'E', 'G', 'I', 'O', 'N', '1']

/-- A bundle of another agent for a third one. -/
def bundleNo (uId : ℤ) : RoutedBundle :=
  ⟨endpoint region ['_', 'o', '1', '4'], region, ['_', 'o', '9', ':', '0'], uId⟩

def agentWith (name met : List Char) (rule : ℕ) (bundles : List RoutedBundle) : Agent :=
  ⟨region, name, rule, 1, 1, 0, 2, [met], [], [], bundles.map fun b => ⟨getBundleIdUid b, b, 1⟩⟩

def first : Agent := agentWith ['_', 'o', '1'] ['_', 'o', '2'] 2 [bundleNo 1]

def second : Agent := agentWith ['_', 'o', '2'] ['_', 'o', '1'] 1 [bundleNo 2]

def noCallees : Callees := ⟨fun nd _ => nd, fun nd _ => nd, fun _ _ _ => 0, fun _ _ _ => 'x'⟩

theorem wfBundle_one : WfBundle (bundleNo 1) :=
  ⟨⟨by decide, by decide, by decide, by decide, by decide, by decide⟩, by decide⟩

theorem wfBundle_two : WfBundle (bundleNo 2) :=
  ⟨⟨by decide, by decide, by decide, by decide, by decide, by decide⟩, by decide⟩

theorem meeting_first : Meeting first second := by
  refine ⟨Nat.lt_succ_self 1, fun p => ?_, fun p => ?_, fun p => ?_, fun s hs p => ?_⟩
  · cases p with
    | a =>
      refine ⟨rfl, rfl, rfl, nodup_singleton _, fun s hs => ?_⟩
      obtain rfl := mem_singleton.1 hs
      exact ⟨rfl, wfBundle_one⟩
    | b =>
      refine ⟨rfl, rfl, rfl, nodup_singleton _, fun s hs => ?_⟩
      obtain rfl := mem_singleton.1 hs
      exact ⟨rfl, wfBundle_two⟩
  · cases p <;> exact mem_singleton_self _
  · have hroom : ((first.ids ++ second.ids).toFinset.card : ℤ) ≤ 2 := by decide
    cases p <;> exact hroom
  · rcases mem_append.1 hs with hs | hs
    · obtain rfl := mem_singleton.1 hs
      cases p <;> exact of_decide_eq_true rfl
    · obtain rfl := mem_singleton.1 hs
      cases p <;> exact of_decide_eq_true rfl

theorem session_never_merges_two : ¬∃ f, start first second = some f ∧
    f.Settles (recvAt noCallees) (Merged first second) :=
  session_never_merges noCallees meeting_first

/-- Each agent has one bundle, which the other one lacks. -/
theorem not_session_merges : ¬∀ (callees : Callees) (A B : Agent), Meeting A B →
    ∃ f, start A B = some f ∧ f.Settles (recvAt callees) (Merged A B) := by
  intro h
  obtain ⟨f, hf, hsettles⟩ := h noCallees first second meeting_first
  exact meeting_first.not_settles noCallees hf hsettles

end EpidemicRouting

end Ns2
