import Ns2.Lib.BinHeap
import Ns2.Sched.ListScheduler

/-! The heap scheduler of `common/scheduler.cc` over the array heap of `common/heap.h`. Its
counter `h_s_key` is an `unsigned int` of 32 bits, the keys it is stored in are wider. The heap
scheduler against the list scheduler. They agree as long as the 32-bit counter gives every event a
larger secondary key than the queued events of its time have; when the counter wraps in between,
the later event leaves first. -/

namespace Ns2

structure HeapElem (K : Type*) where
  key : K
  sKey : ℕ
  elem : Event K
deriving DecidableEq

structure Heap (K : Type*) where
  sKey : ℕ
  size : ℕ
  maxsize : ℕ
  iter : ℕ
  elems : ℕ → HeapElem K

namespace Heap

open BinHeap

variable {K : Type*}

/-- `fresh n` is the memory of a new array of `n` cells. -/
def construct (fresh : ℕ → ℕ → HeapElem K) (size : ℕ) : Heap K := ⟨0, 0, size, 0, fresh size⟩

/-- One more than the index of the element, or 0. -/
def heapMember (e : Event K) (h : Heap K) : ℕ :=
  match (List.range h.size).find? fun i => (h.elems i).elem.addr = e.addr with
  | some i => i + 1
  | none => 0

def heapMin (h : Heap K) : Option (Event K) := if h.size > 0 then some (h.elems 0).elem else none

def heapIter (h : Heap K) : Heap K × Option (Event K) :=
  if h.iter ≥ h.size then ({ h with iter := 0 }, none)
  else ({ h with iter := h.iter + 1 }, some (h.elems h.iter).elem)

/-- The loop of `HeapScheduler::lookup`, for at most `fuel` more elements. -/
def lookupLoop (uid : ℤ) : ℕ → Heap K → Option (Event K) → Option (Heap K × Option (Event K))
  | _, h, none => some (h, none)
  | fuel, h, some e =>
    if e.uid = uid then some (h, some e)
    else
      match fuel with
      | 0 => none
      | fuel + 1 => lookupLoop uid fuel h.heapIter.1 h.heapIter.2

def lookup (uid : ℤ) (h : Heap K) : Option (Heap K × Option (Event K)) :=
  lookupLoop uid h.size { h with iter := 1 } h.heapMin

variable [LinearOrder K]

def KeyLessThan (k₁ : K) (ks₁ : ℕ) (k₂ : K) (ks₂ : ℕ) : Prop := k₁ < k₂ ∨ k₁ = k₂ ∧ ks₁ < ks₂

def Less (a b : HeapElem K) : Prop := KeyLessThan a.key a.sKey b.key b.sKey

instance : DecidableRel (Less (K := K)) := fun a b =>
  inferInstanceAs (Decidable (a.key < b.key ∨ a.key = b.key ∧ a.sKey < b.sKey))

/-- The growth of the array; `none` where the doubled `h_maxsize` wraps and the
copy runs past the new array. -/
def grow (fresh : ℕ → ℕ → HeapElem K) (h : Heap K) : Option (Heap K) :=
  if h.maxsize = h.size then
    let maxsize := h.maxsize * 2 % 2 ^ 32
    if maxsize < h.maxsize then none
    else some { h with
      maxsize := maxsize
      elems := fun i => if i < h.maxsize then h.elems i else fresh maxsize i }
  else some h

def heapInsert (fresh : ℕ → ℕ → HeapElem K) (key : K) (elem : Event K) (h : Heap K) :
    Option (Heap K) :=
  (h.grow fresh).map fun h => { h with
    size := h.size + 1
    elems := siftUp Less ⟨key, h.sKey, elem⟩ h.elems h.size
    sKey := (h.sKey + 1) % 2 ^ 32 }

def heapExtractMin (h : Heap K) : Heap K × Option (Event K) :=
  if h.size = 0 then (h, none)
  else
    ({ h with size := h.size - 1, elems := extract Less (h.size - 1) h.elems },
      some (h.elems 0).elem)

def heapDelete (e : Event K) (h : Heap K) : Heap K × ℕ :=
  match h.heapMember e with
  | 0 => (h, 0)
  | i + 1 => (({ h with elems := toRoot h.elems i }).heapExtractMin.1, 1)

end Heap

namespace HeapScheduler

variable {K : Type*} [LinearOrder K]

def cancel (e : Event K) (h : Heap K) : Heap K × Event K :=
  if e.uid ≤ 0 then (h, e) else ((h.heapDelete e).1, e.cancelled)

def machine (fresh : ℕ → ℕ → HeapElem K) : Machine (Heap K) (Op K) (Option (Event K)) where
  step h
    | .insert e => (h.heapInsert fresh e.time e).map fun h => (h, none)
    | .cancel e => some ((cancel e h).1, some (cancel e h).2)
    | .lookup uid => h.lookup uid
    | .head => some (h, h.heapMin)
    | .deque => some h.heapExtractMin

/-- `new Heap` with `HEAP_DEFAULT_SIZE` cells. -/
def construct (fresh : ℕ → ℕ → HeapElem K) : Heap K := Heap.construct fresh 32

end HeapScheduler

open Function

namespace Heap

open BinHeap ListScheduler

variable {K : Type*} [LinearOrder K]
variable {h : Heap K} {ks : List (HeapElem K)} {x : HeapElem K}

/-- The pair the heap is ordered by. -/
def order (x : HeapElem K) : K ×ₗ ℕ := toLex (x.key, x.sKey)

theorem less_iff (a b : HeapElem K) : Less a b ↔ order a < order b := by
  unfold order
  rw [Prod.Lex.toLex_lt_toLex]
  rfl

/-- The array is a heap that holds `ks`, the entries of the queue in the order in
which they leave. -/
structure Holds (h : Heap K) (ks : List (HeapElem K)) : Prop where
  size_le : h.size ≤ h.maxsize
  maxsize : 0 < h.maxsize
  ordered : Ordered order h.size h.elems
  perm : (contents h.elems h.size).Perm ks
  sorted : ks.Pairwise fun a b => order a < order b
  time : ∀ x ∈ ks, x.key = x.elem.time
  queue : Queue (ks.map HeapElem.elem)

theorem Holds.length (hh : Holds h ks) : ks.length = h.size := by
  rw [← hh.perm.length_eq, contents, List.length_map, List.length_range]

theorem Holds.mem (hh : Holds h ks) : x ∈ ks ↔ ∃ i < h.size, h.elems i = x := by
  rw [← hh.perm.mem_iff, mem_contents]

theorem map_insertAfter (hks : ∀ y ∈ ks, y.key = y.elem.time) (hx : x.key = x.elem.time) :
    (insertAfter HeapElem.key x ks).map HeapElem.elem =
      ListScheduler.insert x.elem (ks.map HeapElem.elem) := by
  rw [insert_eq]
  induction ks with
  | nil => rfl
  | cons y ks ih =>
    rw [List.forall_mem_cons] at hks
    rw [insertAfter_cons, List.map_cons, insertAfter_cons, hx, hks.1]
    split_ifs
    · rfl
    · rw [List.map_cons, ih hks.2]

/-- What an insertion needs: the array can still grow, and the counter is above
the secondary keys of all queued events of the same time. -/
def Fresh (h : Heap K) (e : Event K) : Prop :=
  h.size < 2 ^ 31 ∧ ∀ i < h.size, (h.elems i).key = e.time → (h.elems i).sKey < h.sKey

theorem Holds.grow (hh : Holds h ks) (hs : h.size < 2 ^ 31) (fresh : ℕ → ℕ → HeapElem K) :
    ∃ h', h.grow fresh = some h' ∧ Holds h' ks ∧ h'.size < h'.maxsize ∧ h'.size = h.size ∧
      h'.sKey = h.sKey := by
  have hle := hh.size_le
  have hpos := hh.maxsize
  unfold Heap.grow
  split_ifs with hfull
  · have hmod : h.maxsize * 2 % 2 ^ 32 = h.maxsize * 2 := Nat.mod_eq_of_lt (by omega)
    dsimp only
    rw [hmod, if_neg (by omega)]
    have hcell : ∀ i < h.size,
        (if i < h.maxsize then h.elems i else fresh (h.maxsize * 2) i) = h.elems i :=
      fun i hi => if_pos (hi.trans_le hle)
    refine ⟨_, rfl, ⟨?_, ?_, ?_, ?_, hh.sorted, hh.time, hh.queue⟩, ?_, rfl, rfl⟩
    · change h.size ≤ h.maxsize * 2
      omega
    · change 0 < h.maxsize * 2
      omega
    · exact hh.ordered.congr fun i hi => (hcell i hi).symm
    · exact (contents_congr hcell).symm ▸ hh.perm
    · change h.size < h.maxsize * 2
      omega
  · exact ⟨h, rfl, hh, by omega, rfl, rfl⟩

theorem insert_spec (hh : Holds h ks) {e : Event K}
    (he : e.addr ∉ (ks.map HeapElem.elem).map Event.addr) (hf : Fresh h e)
    (fresh : ℕ → ℕ → HeapElem K) :
    ∃ h' ks', h.heapInsert fresh e.time e = some h' ∧ Holds h' ks' ∧
      ks'.map HeapElem.elem = ListScheduler.insert e (ks.map HeapElem.elem) := by
  obtain ⟨h₁, hg, hh₁, hroom, hsize, hkey⟩ := hh.grow hf.1 fresh
  set x : HeapElem K := ⟨e.time, h₁.sKey, e⟩ with hx
  have hfresh : ∀ y ∈ ks, y.key = x.key → y.sKey < x.sKey := by
    intro y hy hyx
    obtain ⟨i, hi, rfl⟩ := hh.mem.1 hy
    change _ < h₁.sKey
    rw [hkey]
    exact hf.2 i hi hyx
  have hmap := map_insertAfter hh.time (x := x) rfl
  have hlast : Ordered order (h₁.size + 1) (siftUp Less x h₁.elems h₁.size) := by
    refine ordered_siftUp less_iff h₁.size.lt_succ_self ⟨?_, ?_⟩ ?_
    · intro j hj hjn hne hp
      rw [update_of_ne hne, update_of_ne hp]
      exact hh₁.ordered j hj (by omega)
    · intro _ j hj hjn hp
      have := parent_lt hj
      omega
    · intro j hj hjn hp
      have := parent_lt hj
      omega
  have hperm : (contents (siftUp Less x h₁.elems h₁.size) (h₁.size + 1)).Perm
      (insertAfter HeapElem.key x ks) := by
    refine (contents_siftUp Less x h₁.elems h₁.size.lt_succ_self).trans ?_
    rw [contents_succ, update_self, contents_congr (b := h₁.elems)
      fun i hi => update_of_ne hi.ne _ _]
    refine (List.perm_append_singleton _ _).trans ?_
    exact (hh₁.perm.cons x).trans (insertAfter_perm x ks).symm
  refine ⟨_, insertAfter HeapElem.key x ks, by rw [heapInsert, hg]; rfl, ?_, hmap⟩
  refine ⟨hroom, hh₁.maxsize, hlast, hperm, pairwise_lex_insertAfter hh.sorted hfresh, ?_, ?_⟩
  · intro y hy
    rcases mem_insertAfter.1 hy with rfl | hy
    · rfl
    · exact hh.time y hy
  · rw [hmap]
    exact hh.queue.insert he

theorem extract_spec {n : ℕ} {a : ℕ → HeapElem K} (ha : OrderedExcept order (n + 1) a 0)
    (h0 : a 0 = x) (hperm : (contents a (n + 1)).Perm (x :: ks)) (hn : n < h.maxsize)
    (hsorted : ks.Pairwise fun a b => order a < order b) (htime : ∀ x ∈ ks, x.key = x.elem.time)
    (hqueue : Queue (ks.map HeapElem.elem)) :
    Holds { h with size := n, elems := extract Less n a } ks where
  size_le := hn.le
  maxsize := Nat.zero_lt_of_lt hn
  ordered := ordered_extract less_iff ha
  perm := (List.perm_cons x).1 ((h0 ▸ (contents_extract Less a n).symm).trans hperm)
  sorted := hsorted
  time := htime
  queue := hqueue

theorem Holds.nil_iff (hh : Holds h ks) : h.size = 0 ↔ ks = [] := by
  rw [← hh.length, List.length_eq_zero_iff]

theorem Holds.root (hh : Holds h (x :: ks)) : h.elems 0 = x := by
  obtain ⟨i, hi, hx⟩ := hh.mem.1 List.mem_cons_self
  have hle := hh.ordered.root_le hi
  rw [hx] at hle
  rcases List.mem_cons.1 (hh.mem.2 ⟨0, Nat.zero_lt_of_lt hi, rfl⟩) with h0 | h0
  · exact h0
  · exact absurd ((List.pairwise_cons.1 hh.sorted).1 _ h0) hle.not_gt

theorem deque_spec (hh : Holds h ks) :
    ∃ h' ks', h.heapExtractMin = (h', (ListScheduler.deque (ks.map HeapElem.elem)).2) ∧
      Holds h' ks' ∧
      ks'.map HeapElem.elem = (ListScheduler.deque (ks.map HeapElem.elem)).1 := by
  cases ks with
  | nil => exact ⟨h, [], by rw [heapExtractMin, if_pos (hh.nil_iff.2 rfl)]; rfl, hh, rfl⟩
  | cons x ks =>
    have hlen : h.size = ks.length + 1 := hh.length.symm
    have hpos : h.size - 1 + 1 = h.size := by omega
    have hroom := hh.size_le
    have hexcept := hh.ordered.except 0 (by omega)
    have hperm := hh.perm
    rw [← hpos] at hexcept hperm
    have hout : h.heapExtractMin = ({ h with
        size := h.size - 1, elems := extract Less (h.size - 1) h.elems }, some x.elem) := by
      rw [heapExtractMin, if_neg (by omega), hh.root]
    exact ⟨_, ks, hout, extract_spec hexcept hh.root hperm (by omega)
      (List.pairwise_cons.1 hh.sorted).2 (fun y hy => hh.time y (List.mem_cons_of_mem _ hy))
      hh.queue.tail, rfl⟩

theorem heapMember_spec (hh : Holds h ks) (hx : x ∈ ks) :
    ∃ i < h.size, h.heapMember x.elem = i + 1 ∧ h.elems i = x := by
  unfold heapMember
  cases hf : (List.range h.size).find? fun i => (h.elems i).elem.addr = x.elem.addr with
  | none =>
    obtain ⟨i, hi, hix⟩ := hh.mem.1 hx
    have := List.find?_eq_none.1 hf i (List.mem_range.2 hi)
    simp [hix] at this
  | some i =>
    have hi : i < h.size := List.mem_range.1 (List.mem_of_find?_eq_some hf)
    have haddr : (h.elems i).elem.addr = x.elem.addr := by simpa using List.find?_some hf
    refine ⟨i, hi, rfl, ?_⟩
    have hnodup : (ks.map fun y => y.elem.addr).Nodup := by
      simpa [List.map_map, comp_def] using hh.queue.nodup
    exact List.inj_on_of_nodup_map hnodup (hh.mem.2 ⟨i, hi, rfl⟩) hx haddr

theorem delete_spec (hh : Holds h ks) {e : Event K} (he : e ∈ ks.map HeapElem.elem) :
    ∃ h' ks', h.heapDelete e = (h', 1) ∧ Holds h' ks' ∧
      ks'.map HeapElem.elem = without e (ks.map HeapElem.elem) := by
  obtain ⟨x, hx, rfl⟩ := List.mem_map.1 he
  obtain ⟨i, hi, hmem, hix⟩ := heapMember_spec hh hx
  set ks' := ks.filter (fun y => y.elem.addr ≠ x.elem.addr) with hks'
  have hmap : ks'.map HeapElem.elem = without x.elem (ks.map HeapElem.elem) := by
    rw [without, List.filter_map]
    rfl
  have hnodup : (ks.map fun y => y.elem.addr).Nodup := by
    simpa [List.map_map, comp_def] using hh.queue.nodup
  have hpos : h.size - 1 + 1 = h.size := by omega
  have hroom := hh.size_le
  have hexcept := (hh.ordered.except i hi).toRoot hi
  have hperm := ((contents_toRoot h.elems hi).trans hh.perm).trans (perm_cons_filter_ne hnodup hx)
  rw [← hpos] at hexcept hperm
  have hout : h.heapDelete x.elem = ({ h with
      size := h.size - 1, elems := extract Less (h.size - 1) (toRoot h.elems i) }, 1) := by
    unfold heapDelete
    rw [hmem]
    dsimp only
    rw [heapExtractMin, if_neg (show h.size ≠ 0 by omega)]
  refine ⟨_, ks', hout, extract_spec hexcept ((toRoot_zero h.elems i).trans hix) hperm (by omega)
    (hh.sorted.filter _) (fun y hy => hh.time y (List.mem_of_mem_filter hy)) ?_, hmap⟩
  rw [hmap]
  exact hh.queue.without _

theorem heapMin_spec (hh : Holds h ks) : h.heapMin = (ks.map HeapElem.elem).head? := by
  unfold heapMin
  cases ks with
  | nil => rw [if_neg (by rw [hh.nil_iff.2 rfl]; exact lt_irrefl 0)]; rfl
  | cons x ks =>
    have hlen : h.size = ks.length + 1 := hh.length.symm
    rw [if_pos (by omega), hh.root]
    rfl

omit [LinearOrder K] in
theorem lookupLoop_spec (uid : ℤ) {fuel k : ℕ} (hk : k < h.size) (hfuel : h.size ≤ fuel + k) :
    ∃ n r, lookupLoop uid fuel { h with iter := k + 1 } (some (h.elems k).elem) =
        some ({ h with iter := n }, r) ∧
      (∀ e, r = some e → e.uid = uid ∧ ∃ j < h.size, (h.elems j).elem = e) ∧
      (r = none → ∀ j, k ≤ j → j < h.size → (h.elems j).elem.uid ≠ uid) := by
  induction fuel generalizing k with
  | zero => omega
  | succ fuel ih =>
    rw [lookupLoop]
    by_cases hu : (h.elems k).elem.uid = uid
    · rw [if_pos hu]
      refine ⟨_, _, rfl, ?_, by simp⟩
      rintro e ⟨⟩
      exact ⟨hu, k, hk, rfl⟩
    rw [if_neg hu]
    rcases Nat.lt_or_ge (k + 1) h.size with hlt | hge
    · obtain ⟨n, r, hl, hsome, hnone⟩ := ih hlt (by omega)
      refine ⟨n, r, ?_, hsome, fun hr j hkj hj => ?_⟩
      · rw [heapIter, if_neg (show ¬ (k + 1 ≥ h.size) by omega)]
        exact hl
      · rcases hkj.eq_or_lt with rfl | hkj
        · exact hu
        · exact hnone hr j hkj hj
    · refine ⟨0, none, ?_, by simp, fun _ j hkj hj => ?_⟩
      · rw [heapIter, if_pos (show k + 1 ≥ h.size from hge)]
        cases fuel <;> rfl
      · obtain rfl : k = j := by omega
        exact hu

theorem lookup_spec (hh : Holds h ks) {uid : ℤ}
    (hu : Admissible (ks.map HeapElem.elem) (.lookup uid)) :
    ∃ n, h.lookup uid =
      some ({ h with iter := n }, ListScheduler.lookup uid (ks.map HeapElem.elem)) := by
  unfold lookup heapMin
  split_ifs with hpos
  · obtain ⟨n, r, hl, hsome, hnone⟩ :=
      lookupLoop_spec uid (h := h) (k := 0) hpos (le_rfl : h.size ≤ h.size + 0)
    refine ⟨n, ?_⟩
    rw [← eq_lookup (r := r) hu ?_ ?_]
    · exact hl
    · intro e he
      obtain ⟨hue, j, hj, rfl⟩ := hsome e he
      exact ⟨List.mem_map_of_mem (hh.mem.2 ⟨j, hj, rfl⟩), hue⟩
    · intro hr e he
      obtain ⟨x, hx, rfl⟩ := List.mem_map.1 he
      obtain ⟨j, hj, rfl⟩ := hh.mem.1 hx
      exact hnone hr j (Nat.zero_le j) hj
  · have hnil : ks = [] := hh.nil_iff.1 (by omega)
    refine ⟨1, ?_⟩
    rw [hnil]
    cases h.size <;> rfl

theorem Holds.iter (hh : Holds h ks) (n : ℕ) : Holds { h with iter := n } ks :=
  ⟨hh.size_le, hh.maxsize, hh.ordered, hh.perm, hh.sorted, hh.time, hh.queue⟩

end Heap

namespace HeapScheduler

open BinHeap ListScheduler

variable {K : Type*} [LinearOrder K]

/-- At an insertion the array can still grow, and the 32-bit counter is above the
secondary keys of all queued events of the same time. -/
def CounterAbove (h : Heap K) : Op K → Prop
  | .insert e => Heap.Fresh h e
  | _ => True

/-- The heap holds the list queue. -/
def HoldsQueue (h : Heap K) (q : List (Event K)) : Prop :=
  ∃ ks, Heap.Holds h ks ∧ ks.map HeapElem.elem = q

theorem machine_simulates (fresh : ℕ → ℕ → HeapElem K) :
    Machine.Simulates (machine fresh) ListScheduler.machine CounterAbove Admissible HoldsQueue where
  step := by
    rintro h q o ⟨ks, hh, rfl⟩ hf ho
    cases o with
    | insert e =>
      obtain ⟨h', ks', hi, hh', hq⟩ := Heap.insert_spec hh ho hf fresh
      exact ⟨h', _, none, by simp [machine, hi], rfl, ks', hh', hq⟩
    | cancel e =>
      by_cases hu : e.uid ≤ 0
      · exact ⟨h, _, some e, by simp [machine, cancel, hu],
          by simp [ListScheduler.machine, ListScheduler.cancel, hu], ks, hh, rfl⟩
      · obtain ⟨h', ks', hd, hh', hq⟩ := Heap.delete_spec hh ho
        refine ⟨h', _, some e.cancelled, by simp [machine, cancel, hu, hd], ?_, ks', hh', hq⟩
        simp [ListScheduler.machine, ListScheduler.cancel, hu, unlink_eq hh.queue.nodup ho]
    | lookup uid =>
      obtain ⟨n, hl⟩ := Heap.lookup_spec hh ho
      exact ⟨_, _, _, hl, rfl, ks, hh.iter n, rfl⟩
    | head => exact ⟨h, _, _, congrArg (fun r => some (h, r)) (Heap.heapMin_spec hh), rfl, ks, hh, rfl⟩
    | deque =>
      obtain ⟨h', ks', hd, hh', hq⟩ := Heap.deque_spec hh
      exact ⟨h', _, _, congrArg some hd, rfl, ks', hh', hq⟩

theorem holds_construct (fresh : ℕ → ℕ → HeapElem K) : Heap.Holds (construct fresh) [] where
  size_le := Nat.zero_le 32
  maxsize := Nat.zero_lt_succ 31
  ordered j _ hj := absurd hj (Nat.not_lt_zero j)
  perm := List.Perm.refl []
  sorted := List.Pairwise.nil
  time := by simp
  queue := Queue.nil

/-- While the counter stays above the queued events of equal time, every sequence
is answered as by the list scheduler, from a heap that holds its queue. -/
theorem heap_refines_list (fresh : ℕ → ℕ → HeapElem K) {ops : List (Op K)}
    (hops : ListScheduler.machine.RunsWith Admissible [] ops)
    (hcounter : (machine fresh).RunsWith CounterAbove (construct fresh) ops) :
    ∃ h q as, (machine fresh).run (construct fresh) ops = some (h, as) ∧
      ListScheduler.machine.run [] ops = some (q, as) ∧
      Ordered Heap.order h.size h.elems ∧
      ((contents h.elems h.size).map HeapElem.elem).Perm q := by
  obtain ⟨h, q, as, hh, hq, ks, hks, rfl⟩ := (machine_simulates fresh).run
    ⟨[], holds_construct fresh, rfl⟩ hcounter hops
  exact ⟨h, _, as, hh, hq, hks.ordered, hks.perm.map _⟩

theorem siftUp_zero {α : Type*} (lt : α → α → Prop) [DecidableRel lt] (e : α) (a : ℕ → α) :
    siftUp lt e a 0 = Function.update a 0 e := by
  rw [siftUp, if_neg (fun h => h.1.false)]

/-- Array memory for the runs below. -/
def blank : ℕ → ℕ → HeapElem ℕ := fun _ _ => ⟨0, 0, ⟨0, 0, 0⟩⟩

/-- Two events of one time, the first of them cancelled. -/
theorem heap_refines_list_cancel : ∃ h q as,
    (machine blank).run (construct blank) [.insert ⟨0, 3, 1⟩, .insert ⟨1, 3, 2⟩,
      .cancel ⟨0, 3, 1⟩, .deque] = some (h, as) ∧
    ListScheduler.machine.run [] [.insert ⟨0, 3, 1⟩, .insert ⟨1, 3, 2⟩, .cancel ⟨0, 3, 1⟩, .deque] =
      some (q, as) ∧
    Ordered Heap.order h.size h.elems ∧
      ((contents h.elems h.size).map HeapElem.elem).Perm q := by
  refine heap_refines_list blank ?_ ?_
  · simp [Machine.RunsWith, Admissible, ListScheduler.machine, ListScheduler.insert]
  · refine ⟨⟨by decide, by simp [construct, Heap.construct]⟩, ?_⟩
    rintro h a hstep
    obtain rfl : h = ⟨1, 1, 32, 0, Function.update (blank 32) 0 ⟨3, 0, ⟨0, 3, 1⟩⟩⟩ := by
      simpa [machine, Heap.heapInsert, Heap.grow, construct, Heap.construct, siftUp_zero,
        eq_comm] using (congrArg (Option.map Prod.fst) hstep)
    refine ⟨⟨Nat.one_lt_two_pow (by decide), ?_⟩, ?_⟩
    · intro i hi _
      obtain rfl : i = 0 := Nat.lt_one_iff.1 hi
      exact Nat.one_pos
    · simp [Machine.RunsWith, CounterAbove]

/-- One event inserted and taken out again, `n` times. -/
def pairs (e : Event K) : ℕ → List (Op K)
  | 0 => []
  | n + 1 => .insert e :: .deque :: pairs e n

/-- Two events of one time, inserted while the counter wraps. -/
def wrapOps : List (Op ℕ) :=
  pairs ⟨0, 0, 1⟩ (2 ^ 32 - 1) ++ [.insert ⟨1, 7, 2⟩, .insert ⟨2, 7, 3⟩, .deque]

theorem run_pairs (fresh : ℕ → ℕ → HeapElem K) (e : Event K) (n : ℕ) {h : Heap K}
    (hs : h.size = 0) (hm : h.maxsize = 32) (hk : h.sKey < 2 ^ 32) :
    ∃ h' as, (machine fresh).run h (pairs e n) = some (h', as) ∧
      ListScheduler.machine.run [] (pairs e n) = some ([], as) ∧
      h'.size = 0 ∧ h'.maxsize = 32 ∧ h'.sKey = (h.sKey + n) % 2 ^ 32 := by
  induction n generalizing h with
  | zero => exact ⟨h, [], rfl, rfl, hs, hm, (Nat.mod_eq_of_lt hk).symm⟩
  | succ n ih =>
    set h₁ : Heap K := { h with
      size := 1, elems := Function.update h.elems 0 ⟨e.time, h.sKey, e⟩,
      sKey := (h.sKey + 1) % 2 ^ 32 } with hh₁
    set h₂ : Heap K := { h₁ with size := 0, elems := extract Heap.Less 0 h₁.elems } with hh₂
    have hins : (machine fresh).step h (.insert e) = some (h₁, none) := by
      simp [machine, Heap.heapInsert, Heap.grow, hs, hm, siftUp_zero, hh₁]
    have hdeq : (machine fresh).step h₁ .deque = some (h₂, some e) := by
      simp [machine, Heap.heapExtractMin, hh₁, hh₂]
    have hlins : ListScheduler.machine.step [] (.insert e) = some ([e], none) := rfl
    have hldeq : ListScheduler.machine.step [e] .deque = some ([], some e) := rfl
    obtain ⟨h', as, hrun, hlist, hs', hm', hk'⟩ := ih (h := h₂) rfl hm (Nat.mod_lt _ (by decide))
    refine ⟨h', none :: some e :: as, ?_, ?_, hs', hm', ?_⟩
    · rw [pairs, Machine.run_cons _ _ hins, Machine.run_cons _ _ hdeq, hrun]
      rfl
    · rw [pairs, Machine.run_cons _ _ hlins, Machine.run_cons _ _ hldeq, hlist]
      rfl
    · rw [hk']
      change ((h.sKey + 1) % 2 ^ 32 + n) % 2 ^ 32 = _
      omega

theorem admissible_pairs (e : Event K) (n : ℕ) {os : List (Op K)}
    (h : ListScheduler.machine.RunsWith Admissible [] os) :
    ListScheduler.machine.RunsWith Admissible [] (pairs e n ++ os) := by
  induction n with
  | zero => exact h
  | succ n ih =>
    refine ⟨by simp [Admissible], ?_⟩
    rintro q a ⟨⟩
    refine ⟨trivial, ?_⟩
    rintro q a ⟨⟩
    exact ih

theorem run_wrap (fresh : ℕ → ℕ → HeapElem ℕ) {h : Heap ℕ} (hs : h.size = 0)
    (hm : h.maxsize = 32) (hk : h.sKey = 2 ^ 32 - 1) :
    ∃ h', (machine fresh).run h [.insert ⟨1, 7, 2⟩, .insert ⟨2, 7, 3⟩, .deque] =
      some (h', [none, none, some ⟨2, 7, 3⟩]) := by
  set x : HeapElem ℕ := ⟨7, 2 ^ 32 - 1, ⟨1, 7, 2⟩⟩ with hx
  have hup : siftUp Heap.Less ⟨7, 0, ⟨2, 7, 3⟩⟩ (Function.update h.elems 0 x) 1 =
      Function.update (Function.update (Function.update h.elems 0 x) 1 x) 0 ⟨7, 0, ⟨2, 7, 3⟩⟩ := by
    have hless : Heap.Less ⟨7, 0, ⟨2, 7, 3⟩⟩ x := by decide
    have hroot : Function.update h.elems 0 x (parent 1) = x := update_self _ _ _
    rw [siftUp, hroot, if_pos ⟨Nat.one_pos, hless⟩]
    exact siftUp_zero _ _ _
  have h1 : (machine fresh).step h (.insert ⟨1, 7, 2⟩) = some ({ h with
      size := 1, elems := Function.update h.elems 0 x, sKey := 0 }, none) := by
    simp [machine, Heap.heapInsert, Heap.grow, hs, hm, hk, siftUp_zero, hx]
  have h2 : (machine fresh).step { h with
      size := 1, elems := Function.update h.elems 0 x, sKey := 0 } (.insert ⟨2, 7, 3⟩) =
      some ({ h with
        size := 2, sKey := 1,
        elems := Function.update (Function.update (Function.update h.elems 0 x) 1 x) 0
          ⟨7, 0, ⟨2, 7, 3⟩⟩ }, none) := by
    simp [machine, Heap.heapInsert, Heap.grow, hm, hup]
  rw [Machine.run_cons _ _ h1, Machine.run_cons _ _ h2]
  exact ⟨_, rfl⟩

/-- After `2 ^ 32 - 1` insertions the two events leave in the wrong order. -/
theorem heap_not_fifo : ListScheduler.machine.RunsWith Admissible [] wrapOps ∧
    (machine blank).answers (construct blank) wrapOps ≠
      ListScheduler.machine.answers [] wrapOps := by
  refine ⟨admissible_pairs _ _ ?_, ?_⟩
  · simp [Machine.RunsWith, Admissible, ListScheduler.machine, ListScheduler.insert]
  obtain ⟨h, as, hrun, hlist, hs, hm, hk⟩ := run_pairs blank ⟨0, 0, 1⟩ (2 ^ 32 - 1)
    (h := construct blank) rfl rfl (by decide)
  obtain ⟨h', hwrap⟩ := run_wrap blank hs hm hk
  have hright : ListScheduler.machine.run ([] : List (Event ℕ))
      [.insert ⟨1, 7, 2⟩, .insert ⟨2, 7, 3⟩, .deque] =
      some ([⟨2, 7, 3⟩], [none, none, some ⟨1, 7, 2⟩]) := rfl
  unfold Machine.answers wrapOps
  rw [Machine.run_append _ _ hrun, Machine.run_append _ _ hlist, hwrap, hright]
  simp

end HeapScheduler

end Ns2
