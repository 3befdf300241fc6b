import Mathlib.Algebra.Order.Ring.Rat
import Ns2.Lib.OrdMap

/-! DSDV: the routing table, the update packet that is made of it, and the records that the receiver
reads. The pointers to events are left out. -/

namespace Ns2.Dsdv

open List

/-- `BIG` -/
def big : ℕ := 250

/-- A data packet for a destination of the own domain; `own` tells that its source is `myaddr_`. -/
structure DataPacket where
  uid : ℕ
  own : Bool
  numForwards : ℕ
  ttl : ℕ
deriving DecidableEq

/-- `rtable_ent`, without its destination. -/
structure RtableEnt where
  hop : ℤ
  metric : ℕ
  seqnum : ℕ
  advertiseOkAt : ℚ
  advertSeqnum : Bool
  advertMetric : Bool
  lastAdvertisedMetric : ℕ
  changedAt : ℚ
  newSeqnumAt : ℚ
  wst : ℚ
  q : Option (List DataPacket)

/-- `bzero` -/
def RtableEnt.zero : RtableEnt := ⟨0, 0, 0, 0, false, false, 0, 0, 0, 0, none⟩

/-- The entries are in the order of their destinations: `AddEntry` is `set`, and `GetEntry` is `find`. -/
abbrev RoutingTable := OrdMap ℤ RtableEnt

/-- `seqno_` is an `int` that is taken to wrap. -/
structure DsdvAgent where
  myaddr : ℤ
  seqno : ℕ
  table : RoutingTable

namespace DsdvAgent

variable (now : ℚ) (periodic : Bool) (a : DsdvAgent)

/-- An entry whose change may be advertised. -/
def changed (e : ℤ × RtableEnt) : Bool := (e.2.advertSeqnum || e.2.advertMetric) && e.2.advertiseOkAt ≤ now

/-- Whether an entry goes into the update. -/
def included (e : ℤ × RtableEnt) : Bool :=
  if periodic && now < e.2.advertiseOkAt then false else periodic || changed now e

/-- A periodic update is made when much of the table has changed. -/
def promoted : Bool :=
  let changeCount := a.table.entries.countP (changed now)
  periodic || (changeCount * 3 > a.table.entries.length && changeCount > 3)

/-- The own entry of a periodic update. -/
def refresh : DsdvAgent :=
  let seqno := (a.seqno + 2) % 2 ^ 32
  { a with
    seqno := seqno
    table := a.table.set a.myaddr { RtableEnt.zero with
      hop := a.myaddr
      seqnum := seqno
      advertSeqnum := true
      changedAt := now
      newSeqnumAt := now } }

/-- The agent whose table goes into the update. -/
def prepared : DsdvAgent := if a.promoted now periodic then a.refresh now else a

/-- An entry that has been advertised. -/
def advertised (e : RtableEnt) : RtableEnt :=
  { e with
    lastAdvertisedMetric := e.metric
    advertSeqnum := false
    advertMetric := if periodic then false else e.advertMetric }

/-- The entries that have been advertised are marked. -/
def marked : DsdvAgent :=
  let f e := if included now periodic e then (e.1, advertised periodic e.2) else e
  { a with
    table := ⟨a.table.entries.map f, by
      have hf : ∀ e, (f e).1 = e.1 := fun e => by
        simp only [f]
        split <;> rfl
      simpa only [pairwise_map, hf] using a.table.sorted⟩ }

end DsdvAgent

/-- The four bytes of an `int`. -/
def bytes (v : ℤ) : List ℤ := [v / 2 ^ 24 % 256, v / 2 ^ 16 % 256, v / 2 ^ 8 % 256, v % 256]

def entryBytes (e : ℤ × RtableEnt) : List ℤ := bytes e.1 ++ (e.2.metric : ℤ) % 256 :: bytes e.2.seqnum

/-- `change_count`, as it goes into the packet. -/
def DsdvAgent.changeCount (now : ℚ) (periodic : Bool) (a : DsdvAgent) : ℕ :=
  let es := a.table.entries
  if a.promoted now periodic then es.length - es.countP fun e => now < e.2.advertiseOkAt
  else es.countP (changed now)

/-- `makeUpdate`, with what is left in `periodic`; `none` is the assertion that fails. -/
def DsdvAgent.makeUpdate (now : ℚ) (periodic : Bool) (a : DsdvAgent) :
    Option (DsdvAgent × Bool × Option (List ℤ)) :=
  let periodic' := a.promoted now periodic
  let changeCount := a.changeCount now periodic
  let a := a.prepared now periodic
  if changeCount = 0 then some (a, periodic', none)
  else
    let listed := a.table.entries.filter (included now periodic')
    if changeCount = listed.length then
      some (a.marked now periodic', periodic', some (changeCount % 256 :: listed.flatMap entryBytes))
    else none

/-- What `processUpdate` reads of a record. -/
structure UpdateRecord where
  dst : ℤ
  metric : ℕ
  seqnum : ℕ
deriving DecidableEq

/-- The value of four bytes. -/
def word (b₃ b₂ b₁ b₀ : ℤ) : ℤ := ((b₃ * 256 + b₂) * 256 + b₁) * 256 + b₀

/-- The loop of `processUpdate`; `none` is a read behind the packet. -/
def records : ℕ → List ℤ → Option (List UpdateRecord)
  | 0, _ => some []
  | n + 1, d₃ :: d₂ :: d₁ :: d₀ :: m :: s₃ :: s₂ :: s₁ :: s₀ :: w =>
    let dst := word d₃ d₂ d₁ d₀
    (records n w).map fun l =>
      ⟨if dst < 2 ^ 31 then dst else dst - 2 ^ 32, m.toNat, (word s₃ s₂ s₁ s₀).toNat⟩ :: l
  | _ + 1, _ => none

def parseUpdate : List ℤ → Option (List UpdateRecord)
  | [] => none
  | n :: w => records n.toNat w

namespace DsdvAgent

variable {l : List (ℤ × RtableEnt)} {n : ℕ}

/-- Destinations and sequence numbers have 32 bits, and no metric is above `BIG`. -/
structure Fits (a : DsdvAgent) : Prop where
  myaddr : -2 ^ 31 ≤ a.myaddr ∧ a.myaddr < 2 ^ 31
  entries : ∀ e ∈ a.table.entries, -2 ^ 31 ≤ e.1 ∧ e.1 < 2 ^ 31 ∧ e.2.metric ≤ big ∧ e.2.seqnum < 2 ^ 32

/-- The entries that are to be advertised. -/
def advertisable (now : ℚ) (periodic : Bool) (a : DsdvAgent) : List UpdateRecord :=
  ((a.prepared now periodic).table.entries.filter (included now (a.promoted now periodic))).map
    fun e => ⟨e.1, e.2.metric, e.2.seqnum⟩

/-- The assertion holds, and the packet has the records of the entries to be advertised, in the order
of their destinations. -/
def RoundTrips (now : ℚ) (periodic : Bool) (a : DsdvAgent) : Prop :=
  (a.advertisable now periodic).Pairwise (fun r r' => r.dst < r'.dst) ∧
  ∃ a' periodic' packet, a.makeUpdate now periodic = some (a', periodic', packet) ∧
    match packet with
    | none => a.advertisable now periodic = []
    | some w => parseUpdate w = some (a.advertisable now periodic)

/-- The own entry may be advertised. -/
def OwnEntry (now : ℚ) (a : DsdvAgent) : Prop := ∃ e ∈ a.table.find a.myaddr, e.advertiseOkAt ≤ now

variable {now : ℚ} {periodic : Bool} {a : DsdvAgent}

theorem records_flatMap
    (hl : ∀ e ∈ l, -2 ^ 31 ≤ e.1 ∧ e.1 < 2 ^ 31 ∧
    e.2.metric ≤ big ∧ e.2.seqnum < 2 ^ 32) (hn : n ≤ l.length) :
    records n (l.flatMap entryBytes) = some ((l.take n).map fun e => ⟨e.1, e.2.metric, e.2.seqnum⟩) := by
  induction l generalizing n with
  | nil =>
    obtain rfl := Nat.le_zero.1 hn
    rfl
  | cons e l ih =>
    rw [forall_mem_cons] at hl
    obtain ⟨⟨h₁, h₂, h₃, h₄⟩, hl⟩ := hl
    cases n with
    | zero => rfl
    | succ n =>
      have hdst : word (e.1 / 2 ^ 24 % 256) (e.1 / 2 ^ 16 % 256) (e.1 / 2 ^ 8 % 256) (e.1 % 256) =
          e.1 % 2 ^ 32 := by unfold word; omega
      have hseq : word ((e.2.seqnum : ℤ) / 2 ^ 24 % 256) ((e.2.seqnum : ℤ) / 2 ^ 16 % 256)
          ((e.2.seqnum : ℤ) / 2 ^ 8 % 256) ((e.2.seqnum : ℤ) % 256) = e.2.seqnum := by unfold word; omega
      have hmetric : ((e.2.metric : ℤ) % 256).toNat = e.2.metric := by unfold big at h₃; omega
      simp only [flatMap_cons, entryBytes, bytes, cons_append, nil_append, records,
        ih hl (Nat.le_of_succ_le_succ hn), hdst, hseq, hmetric, Option.map_some, take_succ_cons,
        map_cons, Int.toNat_natCast]
      congr 3
      split <;> omega

/-- A value that counts is put into the entries. -/
theorem countP_setEntry {P : ℤ × RtableEnt → Bool} {k : ℤ} {v : RtableEnt} (hv : P (k, v) = true)
    (hl : l.Pairwise fun a b => a.1 < b.1) :
    (setEntry k v l).countP P + (lookupEntry k l).toList.countP (fun e => P (k, e)) =
      l.countP P + 1 := by
  induction l with
  | nil => simp [setEntry, lookupEntry, hv]
  | cons x l ih =>
    obtain ⟨hx, hl⟩ := pairwise_cons.1 hl
    rw [setEntry]
    split_ifs with hlt heq
    · have hnone : lookupEntry k (x :: l) = none := by
        refine Option.eq_none_iff_forall_not_mem.2 fun v hv => ?_
        rcases mem_cons.1 (mem_of_lookupEntry hv) with h | h
        · exact hlt.ne (congrArg Prod.fst h)
        · exact (hlt.trans (hx _ h)).false
      rw [hnone, countP_cons_of_pos hv]
      rfl
    · subst heq
      rw [lookupEntry, if_pos rfl, countP_cons_of_pos hv, countP_cons]
      simp only [Option.toList_some, countP_singleton, Prod.mk.eta]
      omega
    · rw [lookupEntry, if_neg heq, countP_cons, countP_cons]
      have := ih hl
      omega

theorem advertisable_sorted : (a.advertisable now periodic).Pairwise fun r r' => r.dst < r'.dst :=
  pairwise_map.2 ((a.prepared now periodic).table.sorted.filter _)

theorem fits_prepared (h : a.Fits) : ∀ e ∈ (a.prepared now periodic).table.entries,
    -2 ^ 31 ≤ e.1 ∧ e.1 < 2 ^ 31 ∧ e.2.metric ≤ big ∧ e.2.seqnum < 2 ^ 32 := by
  intro e he
  rw [prepared] at he
  split_ifs at he
  · rcases mem_setEntry he with rfl | he
    · exact ⟨h.myaddr.1, h.myaddr.2, Nat.zero_le _, Nat.mod_lt _ (by decide)⟩
    · exact h.entries e he
  · exact h.entries e he

/-- `change_count` is about the table before the own entry is refreshed. -/
theorem changeCount_eq : a.changeCount now periodic =
    a.table.entries.countP (included now (a.promoted now periodic)) := by
  rw [changeCount]
  cases a.promoted now periodic with
  | false =>
    have hP : included now false = changed now := by
      funext e
      simp [included]
    rw [hP, if_neg Bool.false_ne_true]
  | true =>
    have h := length_eq_countP_add_countP (l := a.table.entries) fun e => now < e.2.advertiseOkAt
    have hP : included now true = fun e => !decide (now < e.2.advertiseOkAt) := by
      funext e
      simp [included]
    simp only [if_true, hP, decide_not, Bool.decide_eq_true] at h ⊢
    omega

theorem changeCount_eq_length_iff (hnow : 0 ≤ now) :
    a.changeCount now periodic = (a.advertisable now periodic).length ↔
      (a.promoted now periodic = true → a.OwnEntry now) := by
  rw [changeCount_eq, advertisable, length_map, ← countP_eq_length_filter, prepared, OwnEntry]
  cases a.promoted now periodic with
  | false => simp
  | true =>
    have h := countP_setEntry (P := included now true) (k := a.myaddr)
      (v := { RtableEnt.zero with
        hop := a.myaddr
        seqnum := (a.seqno + 2) % 2 ^ 32
        advertSeqnum := true
        changedAt := now
        newSeqnumAt := now }) (by simp [included, RtableEnt.zero, not_lt.2 hnow]) a.table.sorted
    simp only [if_true, refresh, OrdMap.set, OrdMap.find, true_imp_iff]
    cases hown : lookupEntry a.myaddr a.table.entries with
    | none =>
      rw [hown] at h
      simp only [Option.toList_none, countP_nil] at h
      simp only [Option.mem_def, reduceCtorEq, false_and, exists_false, iff_false]
      omega
    | some e =>
      rw [hown] at h
      simp only [Option.toList_some, countP_singleton, included] at h
      simp only [Option.mem_def, Option.some.injEq, exists_eq_left']
      by_cases hok : e.advertiseOkAt ≤ now
      · simp only [not_lt.2 hok, decide_false, Bool.and_false, Bool.true_or] at h
        simp only [hok, iff_true]
        exact Nat.succ.inj h.symm
      · simp only [not_le.1 hok, decide_true, Bool.and_self, if_true, Bool.false_eq_true, if_false] at h
        simp only [hok, iff_false]
        omega

/-- What goes wrong is the count in the packet. -/
theorem roundTrips_iff_count (h : a.Fits) : a.RoundTrips now periodic ↔
    a.changeCount now periodic = (a.advertisable now periodic).length ∧
      a.changeCount now periodic ≤ 255 := by
  rw [RoundTrips, and_iff_right advertisable_sorted, makeUpdate]
  have hlength : ((a.prepared now periodic).table.entries.filter
      (included now (a.promoted now periodic))).length = (a.advertisable now periodic).length := by
    rw [advertisable, length_map]
  simp only [hlength]
  generalize hn : a.changeCount now periodic = n
  by_cases hcount : n = (a.advertisable now periodic).length
  · by_cases hzero : n = 0
    · rw [if_pos hzero]
      have hnil := eq_nil_of_length_eq_zero (hcount.symm.trans hzero)
      exact iff_of_true ⟨_, _, _, rfl, hnil⟩ ⟨hcount, hzero ▸ Nat.zero_le _⟩
    have hparse : parseUpdate ((n : ℤ) % 256 :: ((a.prepared now periodic).table.entries.filter
        (included now (a.promoted now periodic))).flatMap entryBytes) =
          some ((a.advertisable now periodic).take (n % 256)) := by
      have hword : ((n : ℤ) % 256).toNat = n % 256 := by omega
      rw [parseUpdate, hword, records_flatMap (fun e he => fits_prepared h e (mem_filter.1 he).1)
        (hlength ▸ hcount ▸ Nat.mod_le n 256), map_take, advertisable]
    rw [if_neg hzero, if_pos hcount, and_iff_right hcount]
    constructor
    · rintro ⟨_, _, _, heq, hw⟩
      obtain ⟨-, -, rfl⟩ := heq
      have hlen := congrArg List.length (Option.some.inj (hparse.symm.trans hw))
      rw [length_take, ← hcount] at hlen
      omega
    · intro hle
      refine ⟨_, _, _, rfl, hparse.trans ?_⟩
      rw [Nat.mod_eq_of_lt (by omega), hcount, take_length]
  · refine iff_of_false ?_ fun h => hcount h.1
    rintro ⟨_, _, _, heq, hw⟩
    split_ifs at heq with hzero
    obtain ⟨-, -, rfl⟩ := heq
    exact hcount (hzero.trans (congrArg List.length hw).symm)

/-- The update is right when its count fits a byte and, if it is periodic, the own entry is already
among the entries that may be advertised. -/
theorem makeUpdate_roundTrips_iff (h : a.Fits) (hnow : 0 ≤ now) : a.RoundTrips now periodic ↔
    a.table.entries.countP (included now (a.promoted now periodic)) ≤ 255 ∧
      (a.promoted now periodic = true → a.OwnEntry now) := by
  rw [roundTrips_iff_count h, changeCount_eq_length_iff hnow, changeCount_eq, and_comm]

/-- A node that knows the ways to `n` others. -/
def ofSize (n : ℕ) : DsdvAgent where
  myaddr := 0
  seqno := 0
  table := ⟨(range n).map fun i : ℕ => ((i : ℤ), RtableEnt.zero), by
    simpa [pairwise_map] using pairwise_lt_range (n := n)⟩

theorem fits_ofSize (hn : n ≤ 2 ^ 31) : (ofSize n).Fits := by
  refine ⟨by simp [ofSize], fun e he => ?_⟩
  obtain ⟨i, hi, rfl⟩ := mem_map.1 he
  have := mem_range.1 hi
  simp only [RtableEnt.zero]
  omega

theorem roundTrips_ofSize_three : (ofSize 3).RoundTrips 0 true :=
  (makeUpdate_roundTrips_iff (fits_ofSize (by decide)) le_rfl).2
    ⟨by simp [included, promoted, ofSize, RtableEnt.zero, countP_map, Function.comp_def],
      fun _ => ⟨RtableEnt.zero, rfl, le_rfl⟩⟩

/-- The count of 256 entries is zero. -/
theorem not_roundTrips :
    (ofSize 256).Fits ∧ (ofSize 256).OwnEntry 0 ∧ ¬(ofSize 256).RoundTrips 0 true := by
  have hfits : (ofSize 256).Fits := fits_ofSize (by decide)
  refine ⟨hfits, ⟨RtableEnt.zero, rfl, le_rfl⟩, fun h => ?_⟩
  have hle := ((roundTrips_iff_count hfits).1 h).2
  simp [changeCount, promoted, ofSize, RtableEnt.zero, countP_map, Function.comp_def] at hle

end DsdvAgent

end Ns2.Dsdv
