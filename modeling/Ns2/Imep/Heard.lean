import Ns2.Imep.Resequence

/-! What the resequencing queues are for: a ledger of the packets of each neighbour that have arrived
and of those that have been passed on since its link came up. -/

namespace Ns2.Imep

/-- The packets of each neighbour since its link came up: the numbers of those passed on, the latest
first, and the arrivals with their times. -/
structure Heard where
  passed : ℤ → List ℕ
  arrived : ℤ → List (ℕ × ℚ)

/-- The packets of `x` that are passed on in the course of an event. -/
def passedOn (x : ℤ) (calls : List Upcall) : List ℕ :=
  calls.filterMap fun u => match u with
    | .object y number => if y = x then some number else none
    | _ => none

namespace Heard

def init : Heard := ⟨fun _ => [], fun _ => []⟩

/-- The arrivals after an event at the time `now`. -/
def arrive (now : ℚ) (x : ℤ) (arrived : List (ℕ × ℚ)) : ImepEvent → List (ℕ × ℚ)
  | .recv src (.object number) => if src = x then (number, now) :: arrived else arrived
  | _ => arrived

/-- An event in the state `s` that leaves the state `s'` and makes the calls `calls`. Of a neighbour
whose link is down nothing is kept. -/
def record (s : ImepAgent) (e : ImepEvent) (s' : ImepAgent) (calls : List Upcall) (H : Heard) :
    Heard where
  passed x := if (s'.lastOf x).isSome then (passedOn x calls).reverse ++ H.passed x else []
  arrived x := if (s'.lastOf x).isSome then arrive s.now x (H.arrived x) e else []

end Heard

/-- The agent with the ledger of what it has heard. -/
def imepHeard : Machine (ImepAgent × Heard) ImepEvent (List Upcall) where
  step sH e := (imep.step sH.1 e).map fun r => ((r.1, sH.2.record sH.1 e r.1 r.2), r.2)

/-- The events that `imep_object_input` and `handlerIncomingTimer` are about. -/
def Resequences : ImepEvent → Prop
  | .recv _ (.object _) => True
  | .incomingTimer => True
  | _ => False

def IsIncomingTimer : ImepEvent → Prop
  | .incomingTimer => True
  | _ => False

/-- Of the packets passed on in the course of the event, one that follows a hole is passed on by the
timer, `MAX_RETRANS_TIME` after a packet behind the hole has arrived. -/
def SkipsRetired (now : ℚ) (e : ImepEvent) (new passed : List ℕ) (arrived : List (ℕ × ℚ)) : Prop :=
  ∀ m ∈ new, (∃ k ∈ passed, k < m) → m - 1 ∉ passed →
    IsIncomingTimer e ∧ ∃ p ∈ arrived, m ≤ p.1 ∧ p.2 + maxRetransTime ≤ now

/-- What the resequencing queues are for, at an event in a state. -/
def InOrder (sH : ImepAgent × Heard) (e : ImepEvent) : Prop :=
  (Resequences e → (imepHeard.step sH e).isSome) ∧
    ∀ out ∈ imepHeard.step sH e, ∀ l ∈ out.1.1.links,
      let passed := out.1.2.passed l.index
      passed.Pairwise (· > ·) ∧
        SkipsRetired out.1.1.now e (passedOn l.index out.2) passed (out.1.2.arrived l.index) ∧
        ∀ m ∈ passed, m + 1 ∉ (out.1.1.queueOf l.index).map Txent.number

/-- An object packet that arrives is less than 128 packets away from the latest one passed on. -/
def InWindow (sH : ImepAgent × Heard) : ImepEvent → Prop
  | .recv src (.object number) =>
    ∀ k ∈ (sH.2.passed src).head?, number < k + 128 ∧ k < number + 128
  | _ => True

/-- No packet waits for the one before it. -/
def IsHead (q : List Txent) (t : Txent) : Prop := ∀ u ∈ q, u.number + 1 ≠ t.number

/-- The packets that the timer passes on do not lead over from the sequence number 255 to 0. -/
def TimerWrapSafe (now : ℚ) (q : List Txent) : Prop :=
  ∀ u ∈ q, u.expire ≤ now → ∀ t ∈ q, t.number % 256 = 0 → ¬IsHead q t →
    ∃ m < t.number, u.number < m ∧ m ∉ q.map Txent.number

/-- A hole that is not yet to be retired is not between two that are. -/
def HolesInOrder (now : ℚ) (q : List Txent) : Prop :=
  ∀ t ∈ q, t.expire ≤ now → IsHead q t → ∀ u ∈ q, t.number < u.number → IsHead q u →
    now < u.expire → ∀ v ∈ q, u.number < v.number → now < v.expire

/-- A packet that arrives when the last sequence number is 0 is the next one, and no packets in a row
lead over from the sequence number 255 to 0 when the first of them is passed on; the timer meets no hole
that is not yet to be retired between two that are. -/
def Orderly (sH : ImepAgent × Heard) : ImepEvent → Prop
  | .recv src (.object number) =>
    (sH.2.passed src ≠ [] → sH.1.lastOf src = some 0 → number % 256 = 1) ∧
      ∀ k ∈ (sH.2.passed src).head?, number = k + 1 → WrapSafe number (sH.1.queueOf src)
  | .incomingTimer =>
    sH.1.incomingTimer = some sH.1.now →
      ∀ d ∈ sH.1.incomingQ, TimerWrapSafe sH.1.now d.txents ∧ HolesInOrder sH.1.now d.txents
  | _ => True

section Decidable

variable (sH : ImepAgent × Heard) (now : ℚ) (q : List Txent)

instance : ∀ e, Decidable (Resequences e)
  | .recv _ (.object _) | .incomingTimer => isTrue trivial
  | .recv _ .beacon | .recv _ .hello | .recv _ (.ack _) => isFalse id
  | .tick _ | .send _ | .undeliverable _ | .purge _ | .rexmitTimer => isFalse id

instance : ∀ e, Decidable (IsIncomingTimer e)
  | .incomingTimer => isTrue trivial
  | .tick _ | .send _ | .recv _ _ | .undeliverable _ | .purge _ | .rexmitTimer => isFalse id

instance (e : ImepEvent) (new passed : List ℕ) (arrived : List (ℕ × ℚ)) :
    Decidable (SkipsRetired now e new passed arrived) :=
  inferInstanceAs (Decidable (∀ m ∈ new, _))

instance (e : ImepEvent) : Decidable (InOrder sH e) :=
  inferInstanceAs (Decidable (_ ∧ ∀ out ∈ imepHeard.step sH e, _))

instance : ∀ e, Decidable (InWindow sH e)
  | .recv src (.object number) => inferInstanceAs
    (Decidable (∀ k ∈ (sH.2.passed src).head?, number < k + 128 ∧ k < number + 128))
  | .recv _ .beacon | .recv _ .hello | .recv _ (.ack _) => isTrue trivial
  | .tick _ | .send _ | .undeliverable _ | .purge _ | .rexmitTimer | .incomingTimer => isTrue trivial

instance (t : Txent) : Decidable (IsHead q t) := inferInstanceAs (Decidable (∀ u ∈ q, _))

instance : Decidable (TimerWrapSafe now q) := inferInstanceAs (Decidable (∀ u ∈ q, _))

instance : Decidable (HolesInOrder now q) := inferInstanceAs (Decidable (∀ t ∈ q, _))

instance (b : ℕ) : Decidable (WrapSafe b q) := inferInstanceAs (Decidable (∀ t ∈ q, _))

instance : ∀ e, Decidable (Orderly sH e)
  | .recv src (.object number) => inferInstanceAs
    (Decidable ((sH.2.passed src ≠ [] → sH.1.lastOf src = some 0 → number % 256 = 1) ∧
      ∀ k ∈ (sH.2.passed src).head?, number = k + 1 → WrapSafe number (sH.1.queueOf src)))
  | .incomingTimer => inferInstanceAs
    (Decidable (sH.1.incomingTimer = some sH.1.now →
      ∀ d ∈ sH.1.incomingQ, TimerWrapSafe sH.1.now d.txents ∧ HolesInOrder sH.1.now d.txents))
  | .recv _ .beacon | .recv _ .hello | .recv _ (.ack _) => isTrue trivial
  | .tick _ | .send _ | .undeliverable _ | .purge _ | .rexmitTimer => isTrue trivial

end Decidable

end Ns2.Imep
