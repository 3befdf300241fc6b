import Mathlib.Algebra.Order.Ring.Rat
import Mathlib.Data.List.Induction
import Mathlib.Tactic.Ring
import Ns2.Lib.Machine

/-! `DtnNeighborsManager`: the table of the neighbors in range, refreshed by their hellos and
cleaned by a timer. The entries of the map are taken in any order; `none` is undefined behaviour. -/

namespace Ns2

open List

namespace DtnNeighbors

structure DtnNeighbor where
  id : List Char
  region : List Char
  arrivalDate : ℚ
deriving DecidableEq

structure DtnNeighborsManager where
  maxNeighbors : ℤ
  neighborsCheckInterval : ℚ
  neighborsMap : List DtnNeighbor
  numberOfNeighbors : ℤ
deriving DecidableEq

/-- The constructor; `id_` has room for 15 characters and `region` for 10, with the terminator. -/
def DtnNeighbor.new (id : List Char) (ad : ℚ) (r : List Char) : Option DtnNeighbor :=
  if id.length < 15 ∧ r.length < 10 then some ⟨id, r, ad⟩ else none

/-- The loop of `check_neighbors`. -/
def checkLoop (now interval : ℚ) : List DtnNeighbor → Option (List DtnNeighbor)
  | [] => some []
  | n :: next =>
    -- the iterator of a neighbor that is silent is incremented after it was erased
    if now - n.arrivalDate > interval then none
    else (checkLoop now interval next).map fun next => n :: next

namespace DtnNeighborsManager

def existNeighbor (id : List Char) (m : DtnNeighborsManager) : Bool :=
  m.neighborsMap.any fun n => n.id = id

def updateArrivalDate (id : List Char) (now : ℚ) (m : DtnNeighborsManager) :
    DtnNeighborsManager :=
  { m with
    neighborsMap := m.neighborsMap.map fun n =>
      if n.id = id then { n with arrivalDate := now } else n }

def isFull (m : DtnNeighborsManager) : Bool := (m.neighborsMap.length : ℤ) = m.maxNeighbors

def addNeighbor (id r : List Char) (now : ℚ) (m : DtnNeighborsManager) :
    Option DtnNeighborsManager :=
  if m.isFull then some m
  else if m.existNeighbor id = false then
    (DtnNeighbor.new id now r).map fun n => { m with
      neighborsMap := m.neighborsMap ++ [n]
      numberOfNeighbors := m.numberOfNeighbors + 1 }
  else some (m.updateArrivalDate id now)

def checkNeighbors (now : ℚ) (m : DtnNeighborsManager) : Option DtnNeighborsManager :=
  (checkLoop now m.neighborsCheckInterval m.neighborsMap).map fun l => { m with neighborsMap := l }

end DtnNeighborsManager

inductive NeighborOp where
  | addNeighbor (id r : List Char) (now : ℚ)
  | checkNeighbors (now : ℚ)

namespace DtnNeighborsManager

def machine : Machine DtnNeighborsManager NeighborOp Unit where
  step m
    | .addNeighbor id r now => (m.addNeighbor id r now).map fun m => (m, ())
    | .checkNeighbors now => (m.checkNeighbors now).map fun m => (m, ())

/-- The manager without neighbors. -/
def start (maxNeighbors : ℤ) (interval : ℚ) : DtnNeighborsManager := ⟨maxNeighbors, interval, [], 0⟩

def ids (m : DtnNeighborsManager) : List (List Char) := m.neighborsMap.map DtnNeighbor.id

/-- A hello comes while there is room, of a known neighbor or with names that fit, or it is of an
unknown one; and no check finds a neighbor that is silent. -/
def Meets (m : DtnNeighborsManager) : NeighborOp → Prop
  | .addNeighbor id r _ =>
    if m.isFull then id ∉ m.ids else id ∈ m.ids ∨ id.length < 15 ∧ r.length < 10
  | .checkNeighbors now =>
    ∀ n ∈ m.neighborsMap, now - n.arrivalDate ≤ m.neighborsCheckInterval

instance (m : DtnNeighborsManager) : DecidablePred m.Meets
  | .addNeighbor id r _ => inferInstanceAs (Decidable
      (if m.isFull then id ∉ m.ids else id ∈ m.ids ∨ id.length < 15 ∧ r.length < 10))
  | .checkNeighbors now =>
    inferInstanceAs (Decidable (∀ n ∈ m.neighborsMap, now - n.arrivalDate ≤ m.neighborsCheckInterval))

end DtnNeighborsManager

def NeighborOp.helloOf (id : List Char) : NeighborOp → Option ℚ
  | .addNeighbor id' _ now => if id' = id then some now else none
  | .checkNeighbors _ => none

/-- When the last hello of a neighbor came. -/
def lastHello (ops : List NeighborOp) (id : List Char) : Option ℚ :=
  (ops.filterMap (NeighborOp.helloOf id)).getLast?

theorem lastHello_snoc (ops : List NeighborOp) (o : NeighborOp) (id : List Char) :
    lastHello (ops ++ [o]) id = (o.helloOf id).or (lastHello ops id) := by
  rw [lastHello, lastHello, filterMap_append]
  cases h : o.helloOf id with
  | none => simp [h]
  | some now => simp [h]

theorem checkLoop_eq {now interval : ℚ} {l : List DtnNeighbor}
    (h : ∀ n ∈ l, now - n.arrivalDate ≤ interval) : checkLoop now interval l = some l := by
  induction l with
  | nil => rfl
  | cons n next ih =>
    rw [forall_mem_cons] at h
    rw [checkLoop, if_neg (not_lt.2 h.1), ih h.2, Option.map_some]

namespace DtnNeighborsManager

variable {m m' : DtnNeighborsManager} {ops : List NeighborOp} {o : NeighborOp}
variable {id r : List Char} {now : ℚ}

/-- What holds of the table after the operations `ops`. -/
structure Inv (maxNeighbors : ℤ) (interval : ℚ) (ops : List NeighborOp)
    (m : DtnNeighborsManager) : Prop where
  max : m.maxNeighbors = maxNeighbors
  interval : m.neighborsCheckInterval = interval
  count : m.numberOfNeighbors = m.neighborsMap.length
  room : (m.neighborsMap.length : ℤ) ≤ m.maxNeighbors
  dates : ∀ n ∈ m.neighborsMap, lastHello ops n.id = some n.arrivalDate

section

variable (m id)

theorem existNeighbor_iff :
    m.existNeighbor id = true ↔ id ∈ m.ids := by
  simp [existNeighbor, ids]

@[simp] theorem ids_updateArrivalDate (now : ℚ) :
    (m.updateArrivalDate id now).ids = m.ids := by
  rw [ids, ids, updateArrivalDate, map_map]
  refine map_congr_left fun n _ => ?_
  rw [Function.comp_apply]
  split_ifs <;> rfl

end

theorem checkNeighbors_eq (hok : m.Meets (.checkNeighbors now)) :
    m.checkNeighbors now = some m := by
  rw [checkNeighbors, checkLoop_eq hok, Option.map_some]

variable {maxNeighbors : ℤ} {interval : ℚ}

section

variable (h : Inv maxNeighbors interval ops m)
include h

theorem Inv.addNeighbor (hok : m.Meets (.addNeighbor id r now)) :
    ∃ m', m.addNeighbor id r now = some m' ∧ m.ids ⊆ m'.ids ∧
      Inv maxNeighbors interval (ops ++ [.addNeighbor id r now]) m' := by
  have hother : ∀ id', id' ≠ id →
      lastHello (ops ++ [.addNeighbor id r now]) id' = lastHello ops id' := by
    intro id' hne
    rw [lastHello_snoc, NeighborOp.helloOf, if_neg (Ne.symm hne), Option.none_or]
  have hself : lastHello (ops ++ [.addNeighbor id r now]) id = some now := by
    rw [lastHello_snoc, NeighborOp.helloOf, if_pos rfl, Option.some_or]
  rw [DtnNeighborsManager.addNeighbor]
  rw [Meets] at hok
  by_cases hfull : m.isFull = true
  · rw [if_pos hfull] at hok ⊢
    refine ⟨m, rfl, Subset.refl _, h.max, h.interval, h.count, h.room, fun n hn => ?_⟩
    have hne : n.id ≠ id := by
      rintro rfl
      exact hok (mem_map_of_mem hn)
    rw [hother _ hne, h.dates n hn]
  · rw [if_neg hfull] at hok ⊢
    by_cases hexists : m.existNeighbor id = false
    · have hnew : id ∉ m.ids := by
        rw [← existNeighbor_iff, hexists]
        exact Bool.false_ne_true
      have hfree : ¬ (m.neighborsMap.length : ℤ) = m.maxNeighbors := by simpa [isFull] using hfull
      have hroom := h.room
      have hcount := h.count
      rw [if_pos hexists, DtnNeighbor.new, if_pos (hok.resolve_left hnew), Option.map_some]
      refine ⟨_, rfl, ?_, h.max, h.interval, ?_, ?_, fun n hn => ?_⟩
      · rw [ids, ids, map_append]
        exact subset_append_left _ _
      · simp [hcount]
      · simp only [length_append, length_singleton, Nat.cast_add, Nat.cast_one]
        omega
      · rcases mem_append.1 hn with hold | hadded
        · have hne : n.id ≠ id := by
            rintro rfl
            exact hnew (mem_map_of_mem hold)
          rw [hother _ hne, h.dates n hold]
        · obtain rfl := mem_singleton.1 hadded
          exact hself
    · rw [if_neg hexists]
      refine ⟨_, rfl, ?_, h.max, h.interval, ?_, ?_, fun n hn => ?_⟩
      · rw [ids_updateArrivalDate]
        exact Subset.refl _
      · exact h.count.trans (by simp [updateArrivalDate])
      · refine le_of_eq_of_le ?_ h.room
        simp [updateArrivalDate]
      · obtain ⟨n₀, hn₀, rfl⟩ := mem_map.1 hn
        split_ifs with hid
        · rw [hid, hself]
        · rw [hother _ hid, h.dates n₀ hn₀]

/-- What an operation that meets the condition does to the table. -/
theorem Inv.step (hok : m.Meets o) :
    ∃ m', machine.step m o = some (m', ()) ∧ m.ids ⊆ m'.ids ∧
      Inv maxNeighbors interval (ops ++ [o]) m' := by
  cases o with
  | addNeighbor id r now =>
    obtain ⟨m', hadd, hids, hinv⟩ := h.addNeighbor hok
    exact ⟨m', congrArg (Option.map fun m => (m, ())) hadd, hids, hinv⟩
  | checkNeighbors now =>
    refine ⟨m, congrArg (Option.map fun m => (m, ())) (checkNeighbors_eq hok), Subset.refl _, h.max,
      h.interval, h.count, h.room, fun n hn => ?_⟩
    rw [lastHello_snoc, NeighborOp.helloOf, Option.none_or]
    exact h.dates n hn

end

theorem inv_start (hmax : 0 ≤ maxNeighbors) :
    Inv maxNeighbors interval [] (start maxNeighbors interval) :=
  ⟨rfl, rfl, rfl, hmax, fun n hn => by cases hn⟩

theorem Inv.run {os : List NeighborOp} (h : Inv maxNeighbors interval ops m)
    (hok : machine.RunsWith Meets m os) :
    ∃ m' as, machine.run m os = some (m', as) ∧ m.ids ⊆ m'.ids ∧
      Inv maxNeighbors interval (ops ++ os) m' := by
  induction os generalizing ops m with
  | nil => exact ⟨m, [], rfl, Subset.refl _, by rwa [append_nil]⟩
  | cons o os ih =>
    obtain ⟨m₁, hstep, hids, hinv⟩ := h.step hok.1
    obtain ⟨m', as, hrun, hids', hinv'⟩ := ih hinv (hok.2 m₁ () hstep)
    refine ⟨m', () :: as, by rw [Machine.run_cons _ os hstep, hrun]; rfl, fun x hx => hids' (hids hx), ?_⟩
    rwa [append_assoc, singleton_append] at hinv'

/-- At every check the last hello of the neighbor is not older than the interval. -/
def KeepsArriving (interval : ℚ) (id : List Char) (pre post : List NeighborOp) : Prop :=
  ∀ p now q, post = p ++ .checkNeighbors now :: q →
    ∃ h ∈ lastHello (pre ++ p) id, now - h ≤ interval

/-- The law of the table over the operations `ops` that end in `m'`. -/
structure Serves (maxNeighbors : ℤ) (interval : ℚ) (ops : List NeighborOp)
    (m' : DtnNeighborsManager) : Prop where
  count : m'.numberOfNeighbors = m'.neighborsMap.length
  room : (m'.neighborsMap.length : ℤ) ≤ maxNeighbors
  kept : ∀ pre post m as id, ops = pre ++ post →
    machine.run (start maxNeighbors interval) pre = some (m, as) → id ∈ m.ids →
    KeepsArriving interval id pre post → id ∈ m'.ids
  removed : ∀ pre now id hello, ops = pre ++ [.checkNeighbors now] →
    lastHello pre id = some hello → now - hello > interval → id ∉ m'.ids

end DtnNeighborsManager

end DtnNeighbors

end Ns2
