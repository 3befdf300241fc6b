import Mathlib.Order.Lattice
import Mathlib.Tactic.Common

/-! Finite maps as lists in strict key order, so that the entries are walked in the
order of the keys. -/

namespace Ns2

open List

variable {κ β : Type*} [LinearOrder κ]
variable {k : κ} {l : List (κ × β)}

/-- A finite map; `sorted` excludes repeated keys. -/
structure OrdMap (κ β : Type*) [LinearOrder κ] where
  entries : List (κ × β)
  sorted : entries.Pairwise fun a b => a.1 < b.1

/-- The value at a key of an entry list. -/
def lookupEntry (k : κ) : List (κ × β) → Option β
  | [] => none
  | e :: l => if e.1 = k then some e.2 else lookupEntry k l

/-- The entry list with a new value at a key. -/
def setEntry (k : κ) (v : β) : List (κ × β) → List (κ × β)
  | [] => [(k, v)]
  | e :: l => if k < e.1 then (k, v) :: e :: l else if e.1 = k then (k, v) :: l else e :: setEntry k v l

theorem mem_setEntry {v : β} {e : κ × β} (h : e ∈ setEntry k v l) : e = (k, v) ∨ e ∈ l := by
  induction l with
  | nil => exact Or.inl (mem_singleton.1 h)
  | cons x l ih =>
    rw [setEntry] at h
    split_ifs at h
    · exact mem_cons.1 h
    · rcases mem_cons.1 h with h | h
      · exact Or.inl h
      · exact Or.inr (mem_cons_of_mem _ h)
    · rcases mem_cons.1 h with rfl | h
      · exact Or.inr mem_cons_self
      · exact (ih h).imp_right (mem_cons_of_mem _)

theorem pairwise_setEntry (k : κ) (v : β) (h : l.Pairwise fun a b => a.1 < b.1) :
    (setEntry k v l).Pairwise fun a b => a.1 < b.1 := by
  induction l with
  | nil => exact pairwise_singleton _ _
  | cons x l ih =>
    obtain ⟨hx, hl⟩ := pairwise_cons.1 h
    rw [setEntry]
    split_ifs with hlt heq
    · refine pairwise_cons.2 ⟨fun e he => ?_, h⟩
      rcases mem_cons.1 he with rfl | he
      · exact hlt
      · exact hlt.trans (hx e he)
    · exact pairwise_cons.2 ⟨fun e he => heq ▸ hx e he, hl⟩
    · refine pairwise_cons.2 ⟨fun e he => ?_, ih hl⟩
      rcases mem_setEntry he with rfl | he
      · exact lt_of_le_of_ne (not_lt.1 hlt) heq
      · exact hx e he

theorem lookupEntry_setEntry (k k' : κ) (v : β) (l : List (κ × β)) :
    lookupEntry k' (setEntry k v l) = if k' = k then some v else lookupEntry k' l := by
  induction l with
  | nil => simp only [setEntry, lookupEntry, eq_comm]
  | cons x l ih =>
    rw [setEntry]
    by_cases hlt : k < x.1
    · rw [if_pos hlt, lookupEntry]
      simp only [eq_comm]
    · rw [if_neg hlt]
      by_cases heq : x.1 = k
      · rw [if_pos heq, lookupEntry, lookupEntry]
        by_cases hk : k' = k
        · rw [if_pos hk.symm, if_pos hk]
        · rw [if_neg (Ne.symm hk), if_neg hk, if_neg (heq ▸ Ne.symm hk)]
      · rw [if_neg heq, lookupEntry, lookupEntry, ih]
        by_cases hk : k' = k
        · rw [if_pos hk, if_pos hk, if_neg (hk ▸ heq)]
        · rw [if_neg hk, if_neg hk]

theorem lookupEntry_filter (k k' : κ) (l : List (κ × β)) :
    lookupEntry k' (l.filter fun e => e.1 ≠ k) = if k' = k then none else lookupEntry k' l := by
  induction l with
  | nil => simp only [filter_nil, lookupEntry, ite_self]
  | cons e l ih =>
    by_cases hk : e.1 = k
    · rw [filter_cons_of_neg (by simpa using hk), ih, lookupEntry, hk]
      by_cases hk' : k' = k
      · rw [if_pos hk', if_pos hk']
      · rw [if_neg hk', if_neg hk', if_neg (Ne.symm hk')]
    · rw [filter_cons_of_pos (by simpa using hk), lookupEntry, ih, lookupEntry]
      by_cases hk' : k' = k
      · rw [if_neg (hk' ▸ hk), if_pos hk', if_pos hk']
      · rw [if_neg hk', if_neg hk']

theorem mem_of_lookupEntry {v : β} (h : lookupEntry k l = some v) : (k, v) ∈ l := by
  induction l with
  | nil => cases h
  | cons x l ih =>
    rw [lookupEntry] at h
    split_ifs at h with hk
    · obtain rfl := Option.some.inj h
      exact hk ▸ mem_cons_self
    · exact mem_cons_of_mem _ (ih h)

theorem lookupEntry_of_mem (hl : l.Pairwise fun a b => a.1 < b.1) {e : κ × β} (h : e ∈ l) :
    lookupEntry e.1 l = some e.2 := by
  induction l with
  | nil => cases h
  | cons x l ih =>
    obtain ⟨hx, hl⟩ := pairwise_cons.1 hl
    rw [lookupEntry]
    rcases mem_cons.1 h with rfl | h
    · rw [if_pos rfl]
    · rw [if_neg (hx e h).ne, ih hl h]

theorem setEntry_setEntry (k : κ) (v v' : β) (l : List (κ × β)) :
    setEntry k v' (setEntry k v l) = setEntry k v' l := by
  induction l with
  | nil => simp [setEntry]
  | cons e l ih =>
    rw [setEntry]
    by_cases hlt : k < e.1
    · rw [if_pos hlt, setEntry, if_neg (lt_irrefl k), if_pos rfl, setEntry, if_pos hlt]
    · rw [if_neg hlt]
      by_cases heq : e.1 = k
      · rw [if_pos heq, setEntry, if_neg (lt_irrefl k), if_pos rfl, setEntry, if_neg hlt, if_pos heq]
      · rw [if_neg heq, setEntry, if_neg hlt, if_neg heq, ih, setEntry, if_neg hlt, if_neg heq]

theorem length_setEntry (h : lookupEntry k l = none) (v : β) :
    (setEntry k v l).length = l.length + 1 := by
  induction l with
  | nil => rfl
  | cons e l ih =>
    rw [lookupEntry] at h
    rw [setEntry]
    split_ifs at h with hk
    split_ifs
    · rfl
    · exact congrArg Nat.succ (ih h)

namespace OrdMap

variable {k : κ} {m : OrdMap κ β}

def empty : OrdMap κ β := ⟨[], Pairwise.nil⟩

def find (k : κ) (m : OrdMap κ β) : Option β := lookupEntry k m.entries

def set (k : κ) (v : β) (m : OrdMap κ β) : OrdMap κ β :=
  ⟨setEntry k v m.entries, pairwise_setEntry k v m.sorted⟩

def erase (k : κ) (m : OrdMap κ β) : OrdMap κ β :=
  ⟨m.entries.filter fun e => e.1 ≠ k, m.sorted.filter _⟩

@[simp] theorem find_empty (k : κ) : (empty : OrdMap κ β).find k = none := rfl

theorem find_set (k k' : κ) (v : β) (m : OrdMap κ β) :
    (m.set k v).find k' = if k' = k then some v else m.find k' :=
  lookupEntry_setEntry k k' v m.entries

@[simp] theorem find_set_self (k : κ) (v : β) (m : OrdMap κ β) : (m.set k v).find k = some v := by
  rw [find_set, if_pos rfl]

theorem find_set_of_ne {k' : κ} (h : k' ≠ k) (v : β) (m : OrdMap κ β) :
    (m.set k v).find k' = m.find k' := by
  rw [find_set, if_neg h]

theorem set_set (k : κ) (v v' : β) (m : OrdMap κ β) : (m.set k v).set k v' = m.set k v' := by
  simp only [set, setEntry_setEntry]

theorem length_set (h : m.find k = none) (v : β) :
    (m.set k v).entries.length = m.entries.length + 1 :=
  length_setEntry h v

theorem find_erase (k k' : κ) (m : OrdMap κ β) :
    (m.erase k).find k' = if k' = k then none else m.find k' :=
  lookupEntry_filter k k' m.entries

theorem mem_entries {v : β} : (k, v) ∈ m.entries ↔ m.find k = some v :=
  ⟨fun h => lookupEntry_of_mem m.sorted h, mem_of_lookupEntry⟩

theorem nodup_keys (m : OrdMap κ β) : (m.entries.map Prod.fst).Nodup :=
  pairwise_map.2 (m.sorted.imp fun h => ne_of_lt h)

theorem not_mem_keys (h : m.find k = none) : k ∉ m.entries.map Prod.fst := by
  intro hk
  obtain ⟨e, he, rfl⟩ := mem_map.1 hk
  have hfind : m.find e.1 = some e.2 := mem_entries.1 he
  rw [h] at hfind
  cases hfind

theorem find_eq (k : κ) (m : OrdMap κ β) :
    m.find k = (m.entries.find? fun e => e.1 = k).map Prod.snd := by
  rw [find]
  induction m.entries with
  | nil => rfl
  | cons e l ih =>
    rw [lookupEntry]
    by_cases hk : e.1 = k
    · rw [if_pos hk, find?_cons_of_pos (by simpa using hk)]
      rfl
    · rw [if_neg hk, ih, find?_cons_of_neg (by simpa using hk)]

end OrdMap

end Ns2
