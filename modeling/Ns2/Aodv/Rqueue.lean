import Ns2.Aodv.Agent
import Ns2.Lib.TailQueue

/-! `aodv_rqueue`: the packets that wait for a route, as a list linked through the packets, and what
becomes of each packet. A failed assertion, a null pointer that is followed and a walk that does not
end give no result. -/

namespace Ns2.Aodv

open List Option Nat

/-- What a packet is dropped for. -/
inductive DropReason where
  | qfull
  | qtimeout
deriving DecidableEq

/-- `head`, `tail` and `next` are the pointers; `ts` is the time until which a packet is buffered. -/
structure Rqueue (P : Type) extends TailQueue P where
  ts : P → ℚ
  len : ℤ
  limit : ℤ
  timeout : ℚ

namespace Rqueue

variable {P : Type}

def new (next : P → Option P) (ts : P → ℚ) : Rqueue P where
  head := none
  tail := none
  next := next
  ts := ts
  len := 0
  limit := aodvRtqMaxLen
  timeout := aodvRtqTimeout

/-- A walk along the list to the first packet that is looked for, with the one before it. -/
def walk (wanted : P → Bool) (next : P → Option P) :
    ℕ → Option P → Option P → Option (Option P × Option P)
  | 0, _, _ => none
  | _ + 1, none, prev => some (none, prev)
  | fuel + 1, some p, prev =>
    if wanted p then some (some p, prev) else walk wanted next fuel (next p) (some p)

/-- The packets that are counted from one on, and the last of them. -/
def count (next : P → Option P) : ℕ → Option P → Option P → ℤ → Option (ℤ × Option P)
  | 0, _, _, _ => none
  | _ + 1, none, prev, cnt => some (cnt, prev)
  | fuel + 1, some p, _, cnt => count next fuel (next p) (some p) (cnt + 1)

open TailQueue (Seg)

variable {l l₁ l₂ : List P} {p : P}

section Walk

variable {wanted : P → Bool} {next : P → Option P} {o prev : Option P} {fuel : ℕ}

theorem walk_of_forall (hs : Seg next o l none) (hfuel : l.length < fuel)
    (hl : ∀ p ∈ l, wanted p = false) : walk wanted next fuel o prev = some (none, l.getLast?.or prev) := by
  induction l generalizing o prev fuel with
  | nil =>
    obtain ⟨fuel, rfl⟩ := exists_eq_add_one_of_ne_zero (ne_of_gt hfuel)
    obtain rfl : o = none := hs
    rfl
  | cons a l ih =>
    obtain ⟨fuel, rfl⟩ := exists_eq_add_one_of_ne_zero (ne_of_gt (zero_lt_of_lt hfuel))
    obtain ⟨rfl, hs⟩ := hs
    obtain ⟨ha, hl⟩ := forall_mem_cons.1 hl
    rw [length_cons] at hfuel
    rw [walk, if_neg (by simp [ha]), ih hs (by omega) hl, getLast?_cons, some_or]
    cases l.getLast? <;> rfl

theorem walk_of_wanted (hs : Seg next o (l₁ ++ p :: l₂) none) (hfuel : l₁.length < fuel)
    (hl : ∀ p ∈ l₁, wanted p = false) (hp : wanted p = true) :
    walk wanted next fuel o prev = some (some p, l₁.getLast?.or prev) := by
  induction l₁ generalizing o prev fuel with
  | nil =>
    obtain ⟨fuel, rfl⟩ := exists_eq_add_one_of_ne_zero (ne_of_gt hfuel)
    obtain ⟨rfl, -⟩ := hs
    rw [walk, if_pos hp]
    rfl
  | cons a l ih =>
    obtain ⟨fuel, rfl⟩ := exists_eq_add_one_of_ne_zero (ne_of_gt (zero_lt_of_lt hfuel))
    obtain ⟨rfl, hs⟩ := hs
    obtain ⟨ha, hl⟩ := forall_mem_cons.1 hl
    rw [length_cons] at hfuel
    rw [walk, if_neg (by simp [ha]), ih hs (by omega) hl, getLast?_cons, some_or]
    cases l.getLast? <;> rfl

theorem count_eq {cnt : ℤ} (hs : Seg next o l none) (hfuel : l.length < fuel) :
    count next fuel o prev cnt = some (cnt + l.length, l.getLast?.or prev) := by
  induction l generalizing o prev fuel cnt with
  | nil =>
    obtain ⟨fuel, rfl⟩ := exists_eq_add_one_of_ne_zero (ne_of_gt hfuel)
    obtain rfl : o = none := hs
    simp [count]
  | cons a l ih =>
    obtain ⟨fuel, rfl⟩ := exists_eq_add_one_of_ne_zero (ne_of_gt (zero_lt_of_lt hfuel))
    obtain ⟨rfl, hs⟩ := hs
    rw [length_cons] at hfuel
    rw [count, ih hs (by omega), getLast?_cons, length_cons, some_or, cast_add,
      cast_one, add_assoc, add_comm 1]
    cases l.getLast? <;> rfl

end Walk

def findPacket (wanted : P → Bool) (q : Rqueue P) : Option (Option P × Option P) :=
  walk wanted q.next (q.len.toNat + 1) q.head none

def findPacketWithDst (daddr : P → ℤ) (dst : ℤ) (q : Rqueue P) : Option (Option P × Option P) :=
  q.findPacket fun p => daddr p = dst

def findAgedPacket (now : ℚ) (q : Rqueue P) : Option (Option P × Option P) :=
  q.findPacket fun p => q.ts p < now

variable {q q' : Rqueue P} {now : ℚ}

/-- The queue holds the packets `l`, in this order. -/
structure Holds (q : Rqueue P) (l : List P) : Prop where
  rep : q.Rep l
  len : q.len = l.length

/-- The times and the limits are the same. -/
structure SameTimes (q q' : Rqueue P) : Prop where
  ts : q'.ts = q.ts
  limit : q'.limit = q.limit
  timeout : q'.timeout = q.timeout

theorem SameTimes.refl (q : Rqueue P) : SameTimes q q := ⟨rfl, rfl, rfl⟩

theorem SameTimes.trans {q'' : Rqueue P} (h : SameTimes q q') (h' : SameTimes q' q'') :
    SameTimes q q'' :=
  ⟨h'.ts.trans h.ts, h'.limit.trans h.limit, h'.timeout.trans h.timeout⟩

theorem Holds.fuel (h : q.Holds l) : l.length < q.len.toNat + 1 := by
  rw [h.len]
  omega

theorem Holds.findPacket (h : q.Holds l) (wanted : P → Bool) :
    (∀ p ∈ l, wanted p = false) ∧ (∃ prev, q.findPacket wanted = some (none, prev)) ∨
    ∃ l₁ p l₂, l = l₁ ++ p :: l₂ ∧ (∀ p ∈ l₁, wanted p = false) ∧ wanted p = true ∧
      q.findPacket wanted = some (some p, l₁.getLast?) := by
  cases hfind : l.find? wanted with
  | none =>
    have hl : ∀ p ∈ l, wanted p = false := by simpa using hfind
    exact .inl ⟨hl, _, walk_of_forall h.rep.seg h.fuel hl⟩
  | some p =>
    obtain ⟨hp, l₁, l₂, rfl, hl₁⟩ := find?_eq_some_iff_append.1 hfind
    have hl₁' : ∀ p ∈ l₁, wanted p = false := by simpa using hl₁
    have hfuel := h.fuel
    rw [length_append] at hfuel
    refine .inr ⟨l₁, p, l₂, rfl, hl₁', hp, ?_⟩
    rw [Rqueue.findPacket, walk_of_wanted h.rep.seg (by omega) hl₁' hp, or_none]

variable [DecidableEq P]

def verifyQueue (q : Rqueue P) : Option Unit := do
  let (cnt, prev) ← count q.next (q.len.toNat + 1) q.head none 0
  if cnt = q.len ∧ prev = q.tail then some () else none

def removeHead (q : Rqueue P) : Option (Rqueue P × Option P) :=
  let len := if q.head.isSome then q.len - 1 else q.len
  if q.head = q.tail then some ({ q with head := none, tail := none, len := len }, q.head)
  else do
    let p ← q.head
    some ({ q with head := q.next p, len := len }, some p)

/-- The packet `p` is taken out, which is at the head or follows `prev`. -/
def takeOut (p : P) (prev : Option P) (q : Rqueue P) : Option (Rqueue P) :=
  if ¬((q.head = some p ∧ prev = none) ∨ prev.bind q.next = some p) then none
  else if q.head = some p then (removeHead q).map Prod.fst
  else do
    let r ← prev
    if q.tail = some p then
      some { q with next := Function.update q.next r none, tail := some r, len := q.len - 1 }
    else some { q with next := Function.update q.next r (q.next p), len := q.len - 1 }

/-- The loop of `purge`. -/
def purgeLoop (now : ℚ) : ℕ → Rqueue P → Option (Rqueue P)
  | 0, _ => none
  | fuel + 1, q => do
    match ← q.findAgedPacket now with
    | (none, _) => some q
    | (some p, prev) =>
      let q ← q.takeOut p prev
      q.verifyQueue
      purgeLoop now fuel q

def purge (now : ℚ) (q : Rqueue P) : Option (Rqueue P) := purgeLoop now (q.len.toNat + 1) q

/-- The packet that is dropped for a new one, if there is one. -/
def makeRoom (now : ℚ) (q : Rqueue P) : Option (Rqueue P × Option (P × DropReason)) :=
  if q.len = q.limit then do
    let (q, p₀) ← q.removeHead
    let p₀ ← p₀
    some (q, some (p₀, if q.ts p₀ > now then .qfull else .qtimeout))
  else some (q, none)

def append (p : P) (q : Rqueue P) : Option (Rqueue P) :=
  if q.head = none then some { q with head := some p, tail := some p, len := q.len + 1 }
  else do
    let t ← q.tail
    some { q with
      next := Function.update q.next t (some p)
      tail := some p
      len := q.len + 1 }

def enque (now : ℚ) (p : P) (q : Rqueue P) : Option (Rqueue P × Option (P × DropReason)) := do
  let q ← q.purge now
  let q := { q with
    next := Function.update q.next p none
    ts := Function.update q.ts p (now + q.timeout) }
  let (q, dropped) ← q.makeRoom now
  let q ← q.append p
  q.verifyQueue
  some (q, dropped)

def deque (now : ℚ) (q : Rqueue P) : Option (Rqueue P × Option P) := do
  let q ← q.purge now
  let (q, p) ← q.removeHead
  q.verifyQueue
  some (q, p)

/-- `deque(dst)`. -/
def dequeDst (daddr : P → ℤ) (now : ℚ) (dst : ℤ) (q : Rqueue P) :
    Option (Rqueue P × Option P) := do
  let q ← q.purge now
  match ← q.findPacketWithDst daddr dst with
  | (none, _) => some (q, none)
  | (some p, prev) =>
    let q ← q.takeOut p prev
    q.verifyQueue
    some (q, some p)

def find (daddr : P → ℤ) (dst : ℤ) (q : Rqueue P) : Option Bool :=
  (q.findPacketWithDst daddr dst).map fun r => r.1.isSome

theorem Holds.verifyQueue (h : q.Holds l) : q.verifyQueue = some () := by
  rw [Rqueue.verifyQueue, count_eq h.rep.seg h.fuel, or_none, zero_add]
  exact if_pos ⟨h.len.symm, h.rep.tail.symm⟩

theorem Holds.removeHead_nil (h : q.Holds []) : ∃ q', q.removeHead = some (q', none) ∧
    q'.Holds [] ∧ SameTimes q q' := by
  have hhead : q.head = none := h.rep.head
  have htail : q.tail = none := h.rep.tail
  refine ⟨{ q with head := none, tail := none, len := q.len }, ?_,
    ⟨TailQueue.Rep.nil rfl rfl, h.len⟩, rfl, rfl, rfl⟩
  rw [Rqueue.removeHead, hhead, htail, if_pos rfl]
  rfl

theorem Holds.removeHead_cons (h : q.Holds (p :: l)) : ∃ q', q.removeHead = some (q', some p) ∧
    q'.Holds l ∧ SameTimes q q' ∧ q'.next = q.next := by
  have hhead : q.head = some p := h.rep.head
  have hlen : q.len - 1 = l.length := by
    rw [h.len, length_cons, cast_add, cast_one, add_sub_cancel_right]
  refine ⟨{ q with toTailQueue := q.toTailQueue.pop p, len := q.len - 1 }, ?_, ⟨h.rep.pop, hlen⟩,
    ⟨rfl, rfl, rfl⟩, ?_⟩
  · rw [Rqueue.removeHead, hhead, TailQueue.pop]
    by_cases htail : q.tail = some p
    · rw [htail, if_pos rfl, if_pos rfl]
      rfl
    · rw [if_neg (Ne.symm htail), if_neg htail]
      rfl
  · unfold TailQueue.pop
    split <;> rfl

theorem Holds.takeOut (h : q.Holds (l₁ ++ p :: l₂)) : ∃ q', q.takeOut p l₁.getLast? = some q' ∧
    q'.Holds (l₁ ++ l₂) ∧ SameTimes q q' := by
  rcases eq_nil_or_concat' l₁ with rfl | ⟨m, r, rfl⟩
  · obtain ⟨q', hq', hholds, hsame, -⟩ := h.removeHead_cons
    have hhead : q.head = some p := h.rep.head
    refine ⟨q', ?_, hholds, hsame⟩
    rw [Rqueue.takeOut, if_neg (not_not_intro (.inl ⟨hhead, rfl⟩)), if_pos hhead, hq']
    rfl
  · have hsplit : (m ++ [r]) ++ p :: l₂ = m ++ r :: p :: l₂ := by
      rw [append_assoc, singleton_append]
    have hrep := hsplit ▸ h.rep
    have hnext : q.next r = some p := hrep.next
    have hhead : q.head ≠ some p := by
      rw [hrep.head]
      have hnodup := hrep.nodup
      intro hp
      cases m with
      | nil =>
        obtain rfl : r = p := some.inj hp
        exact (nodup_cons.1 hnodup).1 mem_cons_self
      | cons a m =>
        obtain rfl : a = p := some.inj hp
        exact (nodup_cons.1 hnodup).1 (by simp)
    have hlen : q.len - 1 = ((m ++ [r]) ++ l₂).length := by
      rw [h.len]
      simp only [length_append, length_cons, length_nil]
      omega
    rw [getLast?_concat, Rqueue.takeOut, if_neg (not_not_intro (.inr hnext)), if_neg hhead,
      bind_eq_bind, bind_some]
    have hunlink : (q.toTailQueue.unlink p r).Rep ((m ++ [r]) ++ l₂) := by
      rw [append_assoc, singleton_append]
      exact hrep.unlink
    rw [TailQueue.unlink] at hunlink
    split_ifs with htail
    · have hlast : q.next p = none := by
        have hl₂ : l₂ = [] := by
          by_contra hne
          exact TailQueue.Rep.tail_ne h.rep hne htail
        rw [h.rep.next, hl₂]
        rfl
      refine ⟨_, rfl, ⟨?_, hlen⟩, rfl, rfl, rfl⟩
      rw [if_pos htail, hlast] at hunlink
      exact hunlink
    · refine ⟨_, rfl, ⟨?_, hlen⟩, rfl, rfl, rfl⟩
      rw [if_neg htail] at hunlink
      exact hunlink

theorem Holds.purgeLoop {fuel : ℕ} (h : q.Holds l) (hfuel : l.length < fuel) :
    ∃ q', q.purgeLoop now fuel = some q' ∧ q'.Holds (l.filter fun p => now ≤ q.ts p) ∧
      SameTimes q q' := by
  induction fuel generalizing q l with
  | zero => omega
  | succ fuel ih =>
    rw [Rqueue.purgeLoop, findAgedPacket]
    rcases h.findPacket (fun p => q.ts p < now) with
      ⟨hnone, prev, hfind⟩ | ⟨l₁, p, l₂, rfl, hl₁, hp, hfind⟩
    · have hall : l.filter (fun p => now ≤ q.ts p) = l := by
        refine filter_eq_self.2 fun p hp => ?_
        simpa using hnone p hp
      rw [hfind, hall]
      exact ⟨q, rfl, h, SameTimes.refl q⟩
    · obtain ⟨q', hq', hholds, hsame⟩ := h.takeOut
      rw [length_append, length_cons] at hfuel
      obtain ⟨q'', hq'', hholds', hsame'⟩ := ih hholds (by rw [length_append]; omega)
      refine ⟨q'', ?_, ?_, hsame.trans hsame'⟩
      · rw [hfind]
        simp only [bind_eq_bind, bind_some, hq', hholds.verifyQueue, hq'']
      · rw [hsame.ts, filter_append] at hholds'
        rw [filter_append, filter_cons_of_neg (by simpa using hp)]
        exact hholds'

theorem Holds.purge (h : q.Holds l) (now : ℚ) : ∃ q', q.purge now = some q' ∧
    q'.Holds (l.filter fun p => now ≤ q.ts p) ∧ SameTimes q q' :=
  h.purgeLoop h.fuel

theorem Holds.append (h : q.Holds l) (hp : p ∉ l) (hnext : q.next p = none) :
    ∃ q', q.append p = some q' ∧ q'.Holds (l ++ [p]) ∧ SameTimes q q' := by
  have hpush := h.rep.push hp
  have hlen : q.len + 1 = (l ++ [p]).length := by
    rw [h.len, length_append]
    rfl
  have htail := h.rep.tail
  rcases eq_nil_or_concat' l with rfl | ⟨m, t, rfl⟩
  · have hhead : q.head = none := h.rep.head
    rw [getLast?_nil] at htail
    refine ⟨_, if_pos hhead, ⟨?_, hlen⟩, rfl, rfl, rfl⟩
    rw [TailQueue.push, htail] at hpush
    simp only at hpush
    rwa [← hnext, Function.update_eq_self] at hpush
  · have hhead : q.head ≠ none := by
      rw [h.rep.head]
      cases m <;> simp
    rw [getLast?_concat] at htail
    have htp : p ≠ t := fun heq => hp (heq ▸ mem_append_right m mem_cons_self)
    refine ⟨{ q with next := Function.update q.next t (some p), tail := some p, len := q.len + 1 },
      ?_, ⟨?_, hlen⟩, rfl, rfl, rfl⟩
    · rw [Rqueue.append, if_neg hhead, htail]
      rfl
    · rw [TailQueue.push, htail] at hpush
      have hkeep : Function.update (Function.update q.next t (some p)) p none =
          Function.update q.next t (some p) := by
        rw [← hnext, ← Function.update_of_ne htp (some p) q.next, Function.update_eq_self]
      rwa [hkeep] at hpush

end Rqueue

end Ns2.Aodv
