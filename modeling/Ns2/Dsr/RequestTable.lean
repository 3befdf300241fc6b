import Ns2.Dsr.RouteKeys
import Ns2.Lib.Machine

/-! `RequestTable`: the last request numbers heard of, in a circular buffer whose slots are found by
either of two identifiers. -/

namespace Ns2

open List

namespace Dsr

/-- `rt_rq_period`. -/
def rtRqPeriod : Time := 1 / 2

structure Entry where
  macId : ID
  netId : ID
  reqNum : ℤ
  lastArp : Time
  rtReqsOutstanding : ℤ
  lastRtReq : Time

/-- The entry of an identifier that is added. -/
def Entry.new (macId netId : ID) (reqNum : ℤ) : Entry :=
  ⟨macId, netId, reqNum, 0, 0, -(rtRqPeriod + 1)⟩

structure RequestTable where
  table : List Entry
  ptr : ℕ

namespace RequestTable

def size (t : RequestTable) : ℕ := t.table.length

/-- The size, where there is no such slot. -/
def find (netId macId : ID) (t : RequestTable) : ℕ :=
  t.table.findIdx fun e => e.netId.eq netId || e.macId.eq macId

def get (id : ID) (t : RequestTable) : ℤ :=
  match t.table[t.find id id]? with
  | none => 0
  | some e => e.reqNum

/-- The next slot is taken. -/
def add (e : Entry) (t : RequestTable) : RequestTable :=
  ⟨t.table.set t.ptr e, (t.ptr + 1) % t.size⟩

def getEntry (id : ID) (t : RequestTable) : RequestTable :=
  if t.size ≤ t.find id id then t.add (.new invalidAddr id 0) else t

def insert (netId macId : ID) (reqNum : ℤ) (t : RequestTable) : RequestTable :=
  match t.table[t.find netId macId]? with
  | none => t.add (.new macId netId reqNum)
  | some e =>
    { t with
      table := t.table.set (t.find netId macId)
        { e with macId := if e.macId.eq invalidAddr then macId else e.macId, reqNum } }

end RequestTable

/-- `insert` is the one with two arguments. -/
inductive RequestOp where
  | insert (netId : ID) (reqNum : ℤ)
  | insertMac (netId macId : ID) (reqNum : ℤ)
  | getEntry (id : ID)

namespace RequestOp

def netId : RequestOp → ID
  | insert netId _ | insertMac netId _ _ | getEntry netId => netId

/-- The second identifier that slots are looked for with. -/
def macId : RequestOp → ID
  | insert _ _ => invalidAddr
  | insertMac _ macId _ => macId
  | getEntry id => id

def reqNum : RequestOp → Option ℤ
  | insert _ reqNum | insertMac _ _ reqNum => some reqNum
  | getEntry _ => none

def apply (t : RequestTable) : RequestOp → RequestTable
  | insert netId reqNum => t.insert netId invalidAddr reqNum
  | insertMac netId macId reqNum => t.insert netId macId reqNum
  | getEntry id => t.getEntry id

/-- The identifier is not in the table, and takes a slot. -/
def Adds (t : RequestTable) (o : RequestOp) : Prop := t.size ≤ t.find o.netId o.macId

instance (t : RequestTable) (o : RequestOp) : Decidable (o.Adds t) :=
  inferInstanceAs (Decidable (_ ≤ _))

end RequestOp

namespace RequestTable

def machine : Machine RequestTable RequestOp Unit := .silent fun t o => some (o.apply t)

def run (t : RequestTable) (os : List RequestOp) : RequestTable := os.foldl RequestOp.apply t

/-- How many identifiers are added. -/
def additions : RequestTable → List RequestOp → ℕ
  | _, [] => 0
  | t, o :: os => (if o.Adds t then 1 else 0) + additions (o.apply t) os

/-- The number of the last insert for an identifier, if there is one. -/
def lastNum (id : ID) : List RequestOp → Option ℤ
  | [] => none
  | o :: os => (lastNum id os).or (if o.netId.eq id then o.reqNum else none)

/-- No slot of another identifier has the second one that is looked for. -/
def Clean (t : RequestTable) (netId macId : ID) : Prop :=
  netId.type ≠ .none ∧ ∀ e ∈ t.table, e.macId.eq macId = true → e.netId.eq netId = true

/-- Every operation of the run looks for a second identifier that no slot of another one has. -/
def RunsClean : RequestTable → List RequestOp → Prop :=
  machine.RunsWith fun t o => t.Clean o.netId o.macId

/-- No identifier has two slots. -/
def Distinct (t : RequestTable) : Prop :=
  ∀ (i j : ℕ) (e e' : Entry), i < j → t.table[i]? = some e → t.table[j]? = some e' →
    e.netId.eq e'.netId = true → e.netId.type = .none

variable {t : RequestTable} {o : RequestOp} {os : List RequestOp} {id netId macId : ID} {e : Entry}
  {i p : ℕ}

theorem machine_run (t : RequestTable) (os : List RequestOp) :
    machine.run t os = some (t.run os, os.map fun _ => ()) := by
  induction os generalizing t with
  | nil => rfl
  | cons o os ih =>
    rw [Machine.run_cons machine os rfl, ih]
    rfl

theorem runsClean_cons : t.RunsClean (o :: os) ↔ t.Clean o.netId o.macId ∧ (o.apply t).RunsClean os :=
  Machine.runsWith_cons_iff rfl

theorem eq_of_clean (h : t.Clean netId macId) (he : e ∈ t.table)
    (hm : (e.netId.eq netId || e.macId.eq macId) = true) : e.netId.eq netId = true := by
  rw [Bool.or_eq_true] at hm
  exact hm.elim id (h.2 e he)

theorem find_eq (hd : t.Distinct) (h : t.Clean netId macId) (hi : t.table[i]? = some e)
    (he : e.netId.eq netId = true) : t.find netId macId = i := by
  obtain ⟨hlt, heq⟩ := List.getElem?_eq_some_iff.1 hi
  rw [find, List.findIdx_eq hlt]
  refine ⟨by rw [heq, he, Bool.true_or], fun j hj => ?_⟩
  rw [← Bool.not_eq_true]
  intro hm
  have hj' := eq_of_clean h (getElem_mem (by omega)) hm
  rw [ID.eq_iff] at he hj'
  have htype := hd j i _ e hj (getElem?_eq_getElem (by omega)) hi
    (ID.eq_iff.2 (hj'.trans he.symm))
  exact h.1 ((congrArg Prod.fst hj').symm.trans htype)

theorem not_adds_iff (h : t.Clean o.netId o.macId) :
    ¬o.Adds t ↔ ∃ (i : ℕ) (e : Entry), t.table[i]? = some e ∧ e.netId.eq o.netId = true := by
  rw [RequestOp.Adds, Nat.not_le, find, size, findIdx_lt_length]
  constructor
  · rintro ⟨e, he, hm⟩
    obtain ⟨i, hi⟩ := mem_iff_getElem?.1 he
    exact ⟨i, e, hi, eq_of_clean h he hm⟩
  · rintro ⟨i, e, hi, he⟩
    exact ⟨e, mem_of_getElem? hi, by rw [he, Bool.true_or]⟩

/-- Only the slot `i` differs, and it has `e`. -/
structure Sets (t t' : RequestTable) (i : ℕ) (e : Entry) : Prop where
  size : t'.size = t.size
  slot : ∀ j, t'.table[j]? = if j = i then some e else t.table[j]?

theorem sets_of_lt {ptr : ℕ} (hi : i < t.size) (e : Entry) : Sets t ⟨t.table.set i e, ptr⟩ i e := by
  refine ⟨List.length_set, fun j => ?_⟩
  rw [getElem?_set]
  simp only [eq_comm (a := i)]
  split_ifs with hj hlt
  · rfl
  · exact absurd (hj ▸ hi) hlt
  · rfl

theorem insert_of_size_le (h : t.size ≤ t.find netId macId) (num : ℤ) :
    t.insert netId macId num = t.add (.new macId netId num) := by
  rw [insert, getElem?_eq_none h]

theorem insert_of_find (hi : t.table[i]? = some e) (hfind : t.find netId macId = i) (num : ℤ) :
    t.insert netId macId num = { t with
      table := t.table.set i
        { e with macId := if e.macId.eq invalidAddr then macId else e.macId, reqNum := num } } := by
  rw [insert, hfind, hi]

theorem apply_of_adds (hptr : t.ptr < t.size) (ha : o.Adds t) : ∃ e : Entry, e.netId = o.netId ∧
    (e.macId = invalidAddr ∨ e.macId = o.macId) ∧ e.reqNum = o.reqNum.getD 0 ∧
    Sets t (o.apply t) t.ptr e ∧ (o.apply t).ptr = (t.ptr + 1) % t.size := by
  obtain ⟨e, hnet, hmac, hnum, happly⟩ : ∃ e : Entry, e.netId = o.netId ∧
      (e.macId = invalidAddr ∨ e.macId = o.macId) ∧ e.reqNum = o.reqNum.getD 0 ∧
      o.apply t = t.add e := by
    cases o with
    | insert netId num => exact ⟨_, rfl, .inr rfl, rfl, insert_of_size_le ha num⟩
    | insertMac netId macId num => exact ⟨_, rfl, .inr rfl, rfl, insert_of_size_le ha num⟩
    | getEntry id => exact ⟨.new invalidAddr id 0, rfl, .inl rfl, rfl, if_pos ha⟩
  rw [happly]
  exact ⟨e, hnet, hmac, hnum, sets_of_lt hptr e, rfl⟩

theorem apply_of_slot (hd : t.Distinct) (h : t.Clean o.netId o.macId) (hi : t.table[i]? = some e)
    (he : e.netId.eq o.netId = true) : ∃ e' : Entry, e'.netId = e.netId ∧
    (e'.macId = e.macId ∨ e'.macId = o.macId) ∧ e'.reqNum = o.reqNum.getD e.reqNum ∧
    Sets t (o.apply t) i e' ∧ (o.apply t).ptr = t.ptr := by
  have hlt : i < t.size := (List.getElem?_eq_some_iff.1 hi).1
  have hfind := find_eq hd h hi he
  have hmac : ∀ macId, (if e.macId.eq invalidAddr then macId else e.macId) = e.macId ∨
      (if e.macId.eq invalidAddr then macId else e.macId) = macId := by
    intro macId
    split_ifs
    · exact .inr rfl
    · exact .inl rfl
  obtain ⟨e', hnet, hmac', hnum, happly⟩ : ∃ e' : Entry, e'.netId = e.netId ∧
      (e'.macId = e.macId ∨ e'.macId = o.macId) ∧ e'.reqNum = o.reqNum.getD e.reqNum ∧
      o.apply t = ⟨t.table.set i e', t.ptr⟩ := by
    cases o with
    | insert netId num =>
      refine ⟨_, ?_, ?_, ?_, insert_of_find hi hfind num⟩
      · rfl
      · exact hmac invalidAddr
      · rfl
    | insertMac netId macId num =>
      refine ⟨_, ?_, ?_, ?_, insert_of_find hi hfind num⟩
      · rfl
      · exact hmac macId
      · rfl
    | getEntry id =>
      have hstay : (RequestOp.getEntry id).apply t = t := if_neg (by
        rw [show t.find id id = i from hfind]
        exact Nat.not_le.2 hlt)
      refine ⟨e, rfl, .inl rfl, rfl, hstay.trans ?_⟩
      rw [← (List.getElem?_eq_some_iff.1 hi).2, List.set_getElem_self]
  rw [happly]
  exact ⟨e', hnet, hmac', hnum, sets_of_lt hlt e', rfl⟩

/-- What holds after every run. -/
structure Inv (t : RequestTable) : Prop where
  ptr : t.ptr < t.size
  distinct : t.Distinct

theorem Distinct.sets {t' : RequestTable} (hd : t.Distinct) (hs : Sets t t' i e)
    (hother : ∀ j e', j ≠ i → t.table[j]? = some e' → e'.netId.eq e.netId ≠ true) : t'.Distinct := by
  intro j k a b hjk hj hk hab
  rw [hs.slot] at hj hk
  split_ifs at hj hk with hji hki hki
  · omega
  · obtain rfl := Option.some.inj hj
    rw [ID.eq_iff] at hab
    exact absurd (ID.eq_iff.2 hab.symm) (hother k b hki hk)
  · obtain rfl := Option.some.inj hk
    exact absurd hab (hother j a hji hj)
  · exact hd j k a b hjk hj hk hab

theorem Inv.apply (hinv : t.Inv) (h : t.Clean o.netId o.macId) : (o.apply t).Inv := by
  have hptr := hinv.ptr
  by_cases ha : o.Adds t
  · obtain ⟨e, hnet, -, -, hs, hptr'⟩ := apply_of_adds hptr ha
    refine ⟨?_, hinv.distinct.sets hs fun j e' _ hj he' => ?_⟩
    · rw [hptr', hs.size]
      exact Nat.mod_lt _ (by omega)
    · rw [hnet] at he'
      exact absurd ha ((not_adds_iff h).2 ⟨j, e', hj, he'⟩)
  · obtain ⟨i, e, hi, he⟩ := (not_adds_iff h).1 ha
    obtain ⟨e', hnet, -, -, hs, hptr'⟩ := apply_of_slot hinv.distinct h hi he
    refine ⟨?_, hinv.distinct.sets hs fun j e₁ hji hj he₁ => ?_⟩
    · rw [hptr', hs.size]
      exact hptr
    · -- Two slots would have the identifier of the operation.
      rw [hnet] at he₁
      rw [ID.eq_iff] at he he₁
      have htype : e.netId.type ≠ .none := by
        have hfst : e.netId.type = o.netId.type := congrArg Prod.fst he
        exact hfst ▸ h.1
      obtain hlt | hgt := Nat.lt_or_gt_of_ne hji
      · have hfst : e₁.netId.type = e.netId.type := congrArg Prod.fst he₁
        exact htype (hfst ▸ hinv.distinct j i e₁ e hlt hj hi (ID.eq_iff.2 he₁))
      · exact htype (hinv.distinct i j e e₁ hgt hi hj (ID.eq_iff.2 he₁.symm))

theorem Inv.size_apply (hinv : t.Inv) (h : t.Clean o.netId o.macId) : (o.apply t).size = t.size := by
  by_cases ha : o.Adds t
  · obtain ⟨_, -, -, -, hs, -⟩ := apply_of_adds hinv.ptr ha
    exact hs.size
  · obtain ⟨i, e, hi, he⟩ := (not_adds_iff h).1 ha
    obtain ⟨_, -, -, -, hs, -⟩ := apply_of_slot hinv.distinct h hi he
    exact hs.size

theorem Inv.run (hinv : t.Inv) (h : t.RunsClean os) : (t.run os).Inv ∧ (t.run os).size = t.size := by
  refine Machine.RunsWith.keeps (I := fun u => u.Inv ∧ u.size = t.size) (fun u o u' _ hu hc hstep => ?_)
    h (machine_run t os) ⟨hinv, rfl⟩
  obtain ⟨rfl, -⟩ := Prod.mk.inj (Option.some.inj hstep)
  exact ⟨hu.1.apply hc, (hu.1.size_apply hc).trans hu.2⟩

/-- An operation for one identifier leaves the slots of the others alone, but for the one that it
takes. -/
theorem Inv.frame (hinv : t.Inv) (h : t.Clean o.netId o.macId) (hi : t.table[i]? = some e)
    (he : e.netId.eq o.netId ≠ true) (hev : ¬(o.Adds t ∧ i = t.ptr)) :
    (o.apply t).table[i]? = some e := by
  by_cases ha : o.Adds t
  · obtain ⟨e', -, -, -, hs, -⟩ := apply_of_adds hinv.ptr ha
    rw [hs.slot, if_neg fun heq => hev ⟨ha, heq⟩, hi]
  · obtain ⟨j, e₁, hj, he₁⟩ := (not_adds_iff h).1 ha
    obtain ⟨e', -, -, -, hs, -⟩ := apply_of_slot hinv.distinct h hj he₁
    have hij : i ≠ j := by
      rintro rfl
      exact he (Option.some.inj (hi.symm.trans hj) ▸ he₁)
    rw [hs.slot, if_neg hij, hi]

/-- The identifier is in the slot `p` with the number `n`, and `k` more additions will not reach the
slot. -/
structure Keeps (t : RequestTable) (id : ID) (p : ℕ) (n : ℤ) (k : ℕ) : Prop where
  inv : t.Inv
  slot : ∃ e, t.table[p]? = some e ∧ e.netId.eq id = true ∧ e.reqNum = n
  room : ∀ j < k, (t.ptr + j) % t.size ≠ p

theorem Keeps.apply {n : ℤ} {k : ℕ} (h : t.Keeps id p n k) (hc : t.Clean o.netId o.macId)
    (hk : o.Adds t → 0 < k) : (o.apply t).Keeps id p
      (if o.netId.eq id = true then o.reqNum.getD n else n)
      (k - if o.Adds t then 1 else 0) := by
  obtain ⟨e, hp, he, hn⟩ := h.slot
  have hptr := h.inv.ptr
  refine ⟨h.inv.apply hc, ?_, ?_⟩
  · by_cases ho : o.netId.eq id = true
    · have he' : e.netId.eq o.netId = true := by
        rw [ID.eq_iff] at he ho ⊢
        exact he.trans ho.symm
      obtain ⟨e', hnet, -, hnum, hs, -⟩ := apply_of_slot h.inv.distinct hc hp he'
      refine ⟨e', by rw [hs.slot, if_pos rfl], hnet ▸ he, ?_⟩
      rw [if_pos ho, hnum, hn]
    · refine ⟨e, h.inv.frame hc hp (fun he' => ho ?_) fun hev => ?_, he, by rw [if_neg ho, hn]⟩
      · rw [ID.eq_iff] at he he' ⊢
        exact he'.symm.trans he
      · have hfree := h.room 0 (hk hev.1)
        rw [Nat.add_zero, Nat.mod_eq_of_lt hptr] at hfree
        exact hfree hev.2.symm
  · intro j hj
    by_cases ha : o.Adds t
    · obtain ⟨_, -, -, -, hs, hptr'⟩ := apply_of_adds hptr ha
      rw [if_pos ha] at hj
      rw [hptr', hs.size, Nat.mod_add_mod, Nat.add_assoc, Nat.add_comm 1 j]
      exact h.room (j + 1) (by omega)
    · obtain ⟨i, e₁, hi, he₁⟩ := (not_adds_iff hc).1 ha
      obtain ⟨_, -, -, -, hs, hptr'⟩ := apply_of_slot h.inv.distinct hc hi he₁
      rw [if_neg ha] at hj
      rw [hptr', hs.size]
      exact h.room j hj

theorem lastNum_cons (id : ID) (o : RequestOp) (os : List RequestOp) (n : ℤ) :
    (lastNum id (o :: os)).getD n =
      (lastNum id os).getD (if o.netId.eq id = true then o.reqNum.getD n else n) := by
  simp only [lastNum]
  cases lastNum id os with
  | some m => rfl
  | none =>
    rw [Option.none_or]
    split_ifs <;> rfl

theorem Keeps.run {n : ℤ} {k : ℕ} (h : t.Keeps id p n k) (hc : t.RunsClean os)
    (hk : t.additions os ≤ k) : (t.run os).Keeps id p ((lastNum id os).getD n)
      (k - t.additions os) := by
  induction os generalizing t n k with
  | nil => exact h
  | cons o os ih =>
    rw [additions] at hk
    obtain ⟨hclean, hc⟩ := runsClean_cons.1 hc
    have hstep := h.apply hclean fun ha => by
      rw [if_pos ha] at hk
      omega
    have hrun := ih hstep hc (by omega)
    rw [additions, Nat.sub_add_eq, lastNum_cons]
    exact hrun

theorem runsClean_append {os' : List RequestOp} :
    t.RunsClean (os ++ os') ↔ t.RunsClean os ∧ (t.run os).RunsClean os' :=
  Machine.runsWith_append_iff (machine_run t os)

/-- An identifier that is added has its slot until as many others are added as there are slots. -/
theorem Inv.keeps_of_adds (hinv : t.Inv) (h : t.Clean o.netId o.macId) (ha : o.Adds t) :
    (o.apply t).Keeps o.netId t.ptr (o.reqNum.getD 0) (t.size - 1) := by
  have hptr := hinv.ptr
  obtain ⟨e, hnet, -, hnum, hs, hptr'⟩ := apply_of_adds hptr ha
  refine ⟨hinv.apply h, ⟨e, by rw [hs.slot, if_pos rfl], ?_, hnum⟩, fun j hj => ?_⟩
  · rw [hnet, ID.eq_iff]
  · rw [hptr', hs.size, Nat.mod_add_mod]
    obtain hlt | hge := Nat.lt_or_ge (t.ptr + 1 + j) t.size
    · rw [Nat.mod_eq_of_lt hlt]
      omega
    · rw [Nat.mod_eq_sub_mod hge, Nat.mod_eq_of_lt (by omega)]
      omega

/-- What `new` leaves in the table is not known, but that its identifiers have no type. -/
def init (blank : List Entry) : RequestTable := ⟨blank, 0⟩

/-- The identifiers are those of hosts, and every second one, if it belongs to a host, to a single
one; `insert` with two arguments is not used. -/
structure Owned (owner : Key → Key) (o : RequestOp) : Prop where
  id : o.netId.type ≠ .none ∧ owner o.netId.key = o.netId.key
  mac : o.macId.type ≠ .none ∧ owner o.macId.key = o.netId.key

/-- Operations with second identifiers of their own find no slot of another identifier. -/
theorem runsClean_of_owned (owner : Key → Key) (hos : ∀ o ∈ os, Owned owner o)
    (ht : ∀ e ∈ t.table, e.macId.type = .none ∨ owner e.macId.key = e.netId.key)
    (hptr : t.ptr < t.size) (hd : t.Distinct) : t.RunsClean os := by
  induction os generalizing t with
  | nil => trivial
  | cons o os ih =>
    obtain ⟨ho, hos⟩ := forall_mem_cons.1 hos
    have hclean : t.Clean o.netId o.macId := by
      refine ⟨ho.id.1, fun e he hm => ?_⟩
      rw [ID.eq_iff] at hm ⊢
      obtain hnone | howner := ht e he
      · have hfst : e.macId.type = o.macId.type := congrArg Prod.fst hm
        exact absurd (hfst.symm.trans hnone) ho.mac.1
      · rw [← howner, hm, ho.mac.2]
    have hinv : (o.apply t).Inv := Inv.apply ⟨hptr, hd⟩ hclean
    refine runsClean_cons.2 ⟨hclean, ih hos (fun e he => ?_) hinv.ptr hinv.distinct⟩
    obtain ⟨j, hj⟩ := mem_iff_getElem?.1 he
    by_cases ha : o.Adds t
    · obtain ⟨e', hnet, hmac, -, hs, -⟩ := apply_of_adds hptr ha
      rw [hs.slot] at hj
      split_ifs at hj with hjp
      · obtain rfl := Option.some.inj hj
        obtain hmac | hmac := hmac
        · exact .inl (by rw [hmac]; rfl)
        · exact .inr (by rw [hmac, hnet, ho.mac.2])
      · exact ht e (mem_of_getElem? hj)
    · obtain ⟨i, e₁, hi, he₁⟩ := (not_adds_iff hclean).1 ha
      obtain ⟨e', hnet, hmac, -, hs, -⟩ := apply_of_slot hd hclean hi he₁
      rw [hs.slot] at hj
      split_ifs at hj with hji
      · obtain rfl := Option.some.inj hj
        obtain hmac | hmac := hmac
        · rw [hmac, hnet]
          exact ht e₁ (mem_of_getElem? hi)
        · rw [ID.eq_iff] at he₁
          exact .inr (by rw [hmac, hnet, he₁, ho.mac.2])
      · exact ht e (mem_of_getElem? hj)

theorem get_eq_lastNum {blank : List Entry} (hpos : 0 < blank.length)
    (hblank : ∀ e ∈ blank, e.netId.type = .none) (hos : (init blank).RunsClean os) :
    (∀ (pre : List RequestOp) (o : RequestOp) (post : List RequestOp), os = pre ++ o :: post →
      o.Adds ((init blank).run pre) →
      (o.apply ((init blank).run pre)).additions post < blank.length →
      ((init blank).run os).Clean o.netId o.netId →
        ((init blank).run os).get o.netId = (lastNum o.netId (o :: post)).getD 0) ∧
    (∀ (pre : List RequestOp) (o : RequestOp) (post : List RequestOp), os = pre ++ o :: post →
      ∀ (i : ℕ) (e : Entry), ((init blank).run pre).table[i]? = some e →
        e.netId.eq o.netId ≠ true →
        ¬(o.Adds ((init blank).run pre) ∧ i = ((init blank).run pre).ptr) →
          (o.apply ((init blank).run pre)).table[i]? = some e) ∧
    ((init blank).run os).Distinct := by
  have hinit : (init blank).Inv :=
    ⟨hpos, fun i j e e' _ hi _ _ => hblank e (mem_of_getElem? hi)⟩
  refine ⟨?_, ?_, (hinit.run hos).1.distinct⟩
  · rintro pre o post rfl hadds hroom hclean
    obtain ⟨hpre, hc⟩ := runsClean_append.1 hos
    obtain ⟨hc, hpost⟩ := runsClean_cons.1 hc
    obtain ⟨hinv, hsize⟩ := hinit.run hpre
    replace hsize : ((init blank).run pre).size = blank.length := hsize
    have hkeeps := (hinv.keeps_of_adds hc hadds).run hpost (by omega)
    obtain ⟨e, hp, he, hnum⟩ := hkeeps.slot
    have hrun : (init blank).run (pre ++ o :: post) =
        (o.apply ((init blank).run pre)).run post := foldl_append
    rw [hrun] at hclean ⊢
    rw [get, find_eq hkeeps.inv.distinct hclean hp he, hp, lastNum_cons,
      if_pos (ID.eq_iff.2 rfl)]
    exact hnum
  · rintro pre o post rfl i e hi he hev
    obtain ⟨hpre, hc⟩ := runsClean_append.1 hos
    exact (hinit.run hpre).1.frame (runsClean_cons.1 hc).1 hi he hev

/-- As a node notes the requests it handles. -/
def heard (src : ℕ) (num : ℤ) : RequestOp := .insertMac (.ofAddr src .ip) (.ofAddr src .ip) num

def sampleBlank : List Entry := .replicate 2 (.new (.ofAddr 7 .none) (.ofAddr 8 .none) 9)

def sampleOps : List RequestOp := [heard 1 5, heard 2 4, heard 1 6]

theorem owned_heard (src : ℕ) (num : ℤ) : Owned (fun k => k) (heard src num) :=
  ⟨⟨fun h => IDType.noConfusion h, rfl⟩, ⟨fun h => IDType.noConfusion h, rfl⟩⟩

theorem runsClean_heard (l : List (ℕ × ℤ)) :
    (init sampleBlank).RunsClean (l.map fun r => heard r.1 r.2) := by
  have htypes : ∀ e ∈ sampleBlank, e.netId.type = .none ∧ e.macId.type = .none := by decide
  refine runsClean_of_owned (fun k => k) (fun o ho => ?_) (fun e he => .inl (htypes e he).2)
    (by decide) (fun i j e e' _ hi _ _ => (htypes e (mem_of_getElem? hi)).1)
  obtain ⟨r, -, rfl⟩ := mem_map.1 ho
  exact owned_heard r.1 r.2

theorem get_eq_lastNum_sample : ((init sampleBlank).run sampleOps).get (.ofAddr 1 .ip) = 6 := by
  refine (get_eq_lastNum (by decide) (by decide)
    (runsClean_heard [(1, 5), (2, 4), (1, 6)])).1 [] (heard 1 5)
    [heard 2 4, heard 1 6] rfl (by decide) (by decide) ⟨by decide, by decide⟩

/-- An identifier that is heard again keeps its slot, which is the next to be taken. -/
theorem get_ne_lastNum : ¬∀ (blank : List Entry) (pre post : List RequestOp) (netId macId : ID)
    (num : ℤ), (∀ e ∈ blank, e.netId.type = .none) →
    (init blank).RunsClean (pre ++ .insertMac netId macId num :: post) →
    (∀ o ∈ post, o.netId.eq netId = true → o.reqNum = none) →
    ((init blank).run (pre ++ [.insertMac netId macId num])).additions post < blank.length →
      ((init blank).run (pre ++ .insertMac netId macId num :: post)).get netId = num := by
  intro h
  have hget := h sampleBlank [heard 1 5, heard 2 4] [heard 3 1] (.ofAddr 1 .ip) (.ofAddr 1 .ip) 6
    (by decide) (runsClean_heard [(1, 5), (2, 4), (1, 6), (3, 1)]) (by decide) (by decide)
  exact absurd hget (by decide)

end RequestTable

end Dsr

end Ns2
