import Mathlib.Algebra.Ring.Int.Defs
import Ns2.Lib.Machine
import Ns2.Lib.Stable

/-! Simulator events and the list scheduler of `common/scheduler.cc`, a list sorted by time with
FIFO order among equal times. The other schedulers are compared with it. `Scheduler::schedule` of
`common/scheduler.cc`, over the virtual functions of any scheduler: it numbers the events before
it inserts them. -/

namespace Ns2

open List

/-- A scheduler event; `addr` stands for the `Event*` itself. Handlers are not
read by any scheduler. -/
structure Event (K : Type*) where
  addr : ℕ
  time : K
  uid : ℤ
deriving DecidableEq, Repr

/-- The event as `cancel` leaves it. -/
def Event.cancelled {K : Type*} (e : Event K) : Event K := { e with uid := -e.uid }

/-- The virtual functions of class `Scheduler`. -/
inductive Op (K : Type*) where
  | insert (e : Event K)
  | cancel (e : Event K)
  | lookup (uid : ℤ)
  | head
  | deque
deriving DecidableEq

namespace ListScheduler

variable {K : Type*}
variable {e : Event K} {q : List (Event K)}

/-- The loop of `cancel`; running off the end is its `abort()`. -/
def unlink (e : Event K) : List (Event K) → Option (List (Event K))
  | [] => none
  | p :: q => if p.addr = e.addr then some q else (unlink e q).map (p :: ·)

def cancel (e : Event K) (q : List (Event K)) : Option (List (Event K) × Event K) :=
  if e.uid ≤ 0 then some (q, e)
  else (unlink e q).map fun q' => (q', e.cancelled)

def lookup (uid : ℤ) : List (Event K) → Option (Event K)
  | [] => none
  | e :: q => if e.uid = uid then some e else lookup uid q

def deque : List (Event K) → List (Event K) × Option (Event K)
  | [] => ([], none)
  | e :: q => (q, some e)

/-- What callers promise: an inserted object is not queued already, a cancelled
event is queued, and the `uid` looked up belongs to at most one queued event. -/
def Admissible (q : List (Event K)) : Op K → Prop
  | .insert e => e.addr ∉ q.map Event.addr
  | .cancel e => e ∈ q
  | .lookup uid => (q.filter (fun e => e.uid = uid)).length ≤ 1
  | .head => True
  | .deque => True

/-- The queue without the object of `e`. -/
def without (e : Event K) (q : List (Event K)) : List (Event K) :=
  q.filter fun x => x.addr ≠ e.addr

theorem mem_without {x : Event K} : x ∈ without e q ↔ x ∈ q ∧ x.addr ≠ e.addr := by
  simp [without]

theorem without_eq_self (he : e.addr ∉ q.map Event.addr) : without e q = q := by
  rw [without, filter_eq_self]
  intro x hx
  simp only [decide_eq_true_eq]
  exact fun h => he (h ▸ mem_map_of_mem hx)

theorem without_append (e : Event K) (l r : List (Event K)) :
    without e (l ++ r) = without e l ++ without e r := filter_append _ _

theorem without_cons_of_ne {x : Event K} (hx : x.addr ≠ e.addr) (l : List (Event K)) :
    without e (x :: l) = x :: without e l := by
  simp [without, hx]

theorem unlink_eq (h : (q.map Event.addr).Nodup) (he : e ∈ q) :
    unlink e q = some (without e q) := by
  induction q with
  | nil => cases he
  | cons p q ih =>
    rw [map_cons, nodup_cons] at h
    rw [unlink]
    by_cases hp : p.addr = e.addr
    · have hq : without e q = q := without_eq_self (hp ▸ h.1)
      rw [if_pos hp, ← hq]
      simp [without, hp]
    · have he : e ∈ q := by
        rcases mem_cons.1 he with rfl | he
        · exact absurd rfl hp
        · exact he
      rw [if_neg hp, ih h.2 he]
      simp [without, hp]

theorem lookup_eq (uid : ℤ) (q : List (Event K)) :
    lookup uid q = q.find? fun e => e.uid = uid := by
  induction q with
  | nil => rfl
  | cons e q ih => by_cases h : e.uid = uid <;> simp [lookup, h, ih]

theorem lookup_eq_some_iff {uid : ℤ} (h : Admissible q (.lookup uid)) (e : Event K) :
    lookup uid q = some e ↔ e ∈ q ∧ e.uid = uid := by
  have hm : e ∈ q ∧ e.uid = uid ↔ e ∈ q.filter fun e => e.uid = uid := by simp
  rw [lookup_eq, hm, ← head?_filter]
  change (q.filter fun e => e.uid = uid).length ≤ 1 at h
  generalize q.filter (fun e => e.uid = uid) = l at h
  match l, h with
  | [], _ => simp
  | [a], _ => simp [eq_comm]

theorem eq_lookup {uid : ℤ} (h : Admissible q (.lookup uid)) {r : Option (Event K)}
    (hsome : ∀ e, r = some e → e ∈ q ∧ e.uid = uid) (hnone : r = none → ∀ e ∈ q, e.uid ≠ uid) :
    r = lookup uid q := by
  cases r with
  | some e => exact ((lookup_eq_some_iff h e).2 (hsome e rfl)).symm
  | none =>
    cases hl : lookup uid q with
    | none => rfl
    | some e =>
      have he := (lookup_eq_some_iff h e).1 hl
      exact absurd he.2 (hnone rfl e he.1)

variable [LinearOrder K]

def insert (e : Event K) : List (Event K) → List (Event K)
  | [] => [e]
  | p :: q => if e.time < p.time then e :: p :: q else p :: insert e q

/-- `cancel` answers with the event it leaves behind. -/
def machine : Machine (List (Event K)) (Op K) (Option (Event K)) where
  step q
    | .insert e => some (insert e q, none)
    | .cancel e => (cancel e q).map fun r => (r.1, some r.2)
    | .lookup uid => some (q, lookup uid q)
    | .head => some (q, q.head?)
    | .deque => some (deque q)

/-- Sorted by time, no object twice. -/
structure Queue (q : List (Event K)) : Prop where
  sorted : KeySorted Event.time q
  nodup : (q.map Event.addr).Nodup

theorem insert_eq (e : Event K) (q : List (Event K)) : insert e q = insertAfter Event.time e q := by
  induction q with
  | nil => rfl
  | cons p q ih =>
    rw [insert, ih, insertAfter_cons]

theorem Queue.nil : Queue ([] : List (Event K)) := ⟨Pairwise.nil, nodup_nil⟩

theorem Queue.filter (h : Queue q) (p : Event K → Bool) : Queue (q.filter p) :=
  ⟨h.sorted.filter p, h.nodup.sublist (filter_sublist.map _)⟩

theorem Queue.without (h : Queue q) (e : Event K) : Queue (without e q) :=
  h.filter _

theorem Queue.tail (h : Queue (e :: q)) : Queue q :=
  ⟨h.sorted.tail, (nodup_cons.1 h.nodup).2⟩

theorem Queue.insert (h : Queue q) (he : e.addr ∉ q.map Event.addr) :
    Queue (ListScheduler.insert e q) := by
  rw [insert_eq]
  refine ⟨h.sorted.insertAfter e, ?_⟩
  rw [((insertAfter_perm e q).map Event.addr).nodup_iff, map_cons, nodup_cons]
  exact ⟨he, h.nodup⟩

theorem Queue.eq_of_addr (h : Queue q) {a b : Event K} (ha : a ∈ q) (hb : b ∈ q)
    (hab : a.addr = b.addr) : a = b :=
  inj_on_of_nodup_map h.nodup ha hb hab

end ListScheduler

open List

/-- `schedule` of an event at a time, and the functions passed on. -/
inductive SchedOp (K : Type*) where
  | schedule (e : Event K) (time : K)
  | cancel (e : Event K)
  | lookup (uid : ℤ)
  | head
  | deque
deriving DecidableEq

namespace Scheduler

variable {σ K : Type*}
variable {uid : ℤ} {q : List (Event K)}

/-- `uid_++` on 64 bits. -/
def nextUid (uid : ℤ) : ℤ := if uid = 2 ^ 63 - 1 then -2 ^ 63 else uid + 1

/-- The checks of `schedule`, and the event it inserts; `time` is `clock_ + delay`. -/
def number (uid : ℤ) (e : Event K) (time : K) : Option (Event K) :=
  if e.uid > 0 then none
  else if uid < 0 then none
  else some { e with uid := uid, time := time }

/-- A scheduler together with the counter `uid_`. -/
def machine (M : Machine σ (Op K) (Option (Event K))) :
    Machine (ℤ × σ) (SchedOp K) (Option (Event K)) where
  step := fun (uid, s) => fun
    | .schedule e time => (number uid e time).bind fun e =>
        (M.step s (.insert e)).map fun (s, a) => ((nextUid uid, s), a)
    | .cancel e => (M.step s (.cancel e)).map fun (s, a) => ((uid, s), a)
    | .lookup u => (M.step s (.lookup u)).map fun (s, a) => ((uid, s), a)
    | .head => (M.step s .head).map fun (s, a) => ((uid, s), a)
    | .deque => (M.step s .deque).map fun (s, a) => ((uid, s), a)

/-- `uid_` as the program starts. -/
def firstUid : ℤ := 1

/-- What the checks of `schedule` pass, and callers promise: the event is not in
the queue, a cancelled event is, and a `uid` looked up is that of an event. -/
def Admissible : ℤ × List (Event K) → SchedOp K → Prop
  | (uid, q), .schedule e _ => e.uid ≤ 0 ∧ 0 ≤ uid ∧ e.addr ∉ q.map Event.addr
  | (_, q), .cancel e => e ∈ q
  | _, _ => True

/-- The queue in the order of times and, at equal times, of numbers. -/
def order [LinearOrder K] (e : Event K) : K ×ₗ ℤ := toLex (e.time, e.uid)

variable [LinearOrder K]

/-- All numbers in the queue are positive and below the counter. -/
structure Numbered (uid : ℤ) (q : List (Event K)) : Prop where
  queue : ListScheduler.Queue q
  sorted : q.Pairwise fun a b => order a < order b
  uids : (q.map Event.uid).Nodup
  pos : ∀ e ∈ q, 0 < e.uid
  below : 0 ≤ uid → 0 < uid ∧ ∀ e ∈ q, e.uid < uid

theorem Numbered.insert (h : Numbered uid q) {e : Event K} {time : K} (hu : 0 ≤ uid)
    (he : e.addr ∉ q.map Event.addr) :
    Numbered (nextUid uid)
      (ListScheduler.insert { e with uid := uid, time := time } q) := by
  obtain ⟨hpos, hbelow⟩ := h.below hu
  have hmem : ∀ x ∈ ListScheduler.insert { e with uid := uid, time := time } q,
      x = { e with uid := uid, time := time } ∨ x ∈ q := by
    intro x hx
    rwa [ListScheduler.insert_eq, mem_insertAfter] at hx
  refine ⟨h.queue.insert he, ?_, ?_, fun x hx => ?_, fun hnext => ?_⟩
  · rw [ListScheduler.insert_eq]
    exact pairwise_lex_insertAfter h.sorted fun y hy _ => hbelow y hy
  · rw [ListScheduler.insert_eq, ((insertAfter_perm _ q).map Event.uid).nodup_iff, map_cons,
      nodup_cons]
    refine ⟨fun hmem => ?_, h.uids⟩
    obtain ⟨y, hy, hyu⟩ := mem_map.1 hmem
    exact (hbelow y hy).ne hyu
  · rcases hmem x hx with rfl | hx
    · exact hpos
    · exact h.pos x hx
  · have hnext' : nextUid uid = uid + 1 := by
      unfold nextUid at *
      split_ifs at * <;> omega
    rw [hnext']
    refine ⟨by omega, fun x hx => ?_⟩
    rcases hmem x hx with rfl | hx
    · exact Int.lt_succ uid
    · exact (hbelow x hx).trans (Int.lt_succ uid)

theorem Numbered.sublist {q' : List (Event K)} (h : Numbered uid q) (hs : q'.Sublist q) :
    Numbered uid q' where
  queue := ⟨h.queue.sorted.sublist hs, h.queue.nodup.sublist (hs.map _)⟩
  sorted := h.sorted.sublist hs
  uids := h.uids.sublist (hs.map _)
  pos e he := h.pos e (hs.subset he)
  below hu := ⟨(h.below hu).1, fun e he => (h.below hu).2 e (hs.subset he)⟩

theorem Numbered.nil : Numbered firstUid ([] : List (Event K)) where
  queue := ListScheduler.Queue.nil
  sorted := Pairwise.nil
  uids := nodup_nil
  pos := by simp
  below _ := ⟨Int.zero_lt_one, by simp⟩

theorem Numbered.lookup (h : Numbered uid q) (u : ℤ) : ListScheduler.Admissible q (.lookup u) := by
  have hcount := nodup_iff_count_le_one.1 h.uids u
  rw [List.count, countP_map, countP_eq_length_filter] at hcount
  exact hcount

end Scheduler

end Ns2
