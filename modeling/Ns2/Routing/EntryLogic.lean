import Mathlib.Data.Nat.Size
import Ns2.Routing.StaticRoutes

/-! The `entry` pointers of `RouteLogic`, of the links and of the routes. Null is 0, and `none` is a
matrix whose size is not an `int`. -/

namespace Ns2

open List Option Function

/-- A `RouteScan` with the entries of the routes. -/
structure EntryScan (K E : Type*) extends RouteScan K where
  entry : ℕ → E

namespace EntryScan

open RouteScan (nodes)

variable {K E : Type*} [LinearOrder K] [Add K] [NatCast K]

def setNeighbour (adj : ℕ → K) (adjEntry : ℕ → E) (n k : ℕ) (s : EntryScan K E) (v : ℕ) :
    EntryScan K E where
  toRouteScan := s.toRouteScan.setNeighbour adj n k v
  entry :=
    if s.parent v ≠ k ∧ adj (index k v n) ≠ infinity K then
      Function.update s.entry (index k v n) (adjEntry (index k v n))
    else s.entry

def update (adj : ℕ → K) (n k o : ℕ) (s : EntryScan K E) (w : ℕ) : EntryScan K E where
  toRouteScan := s.toRouteScan.update adj n k o w
  entry :=
    if s.parent w ≠ k ∧ s.hopcnt o + adj (index o w n) < s.hopcnt w then
      Function.update s.entry (index k w n) (s.entry (index k o n))
    else s.entry

def extend (adj : ℕ → K) (n k : ℕ) (s : EntryScan K E) : EntryScan K E :=
  let s := { s with hopcnt := Function.update s.hopcnt 0 (infinity K) }
  let o := s.toRouteScan.nearest n k
  let s := { s with parent := Function.update s.parent o k }
  if o = 0 then s else (nodes n).foldl (update adj n k o) s

def scan (adj : ℕ → K) (adjEntry : ℕ → E) (n : ℕ) (s : EntryScan K E) (k : ℕ) : EntryScan K E :=
  let s := (nodes n).foldl (setNeighbour adj adjEntry n k) { s with parent := id }
  (nodes n).foldl (fun s _ => s.extend adj n k) s

/-- The next hops and the entries of all sources. -/
def routes [Zero E] (adj : ℕ → K) (adjEntry : ℕ → E) (n : ℕ) (hopcnt : ℕ → K) :
    (ℕ → ℕ) × (ℕ → E) :=
  let s := (nodes n).foldl (scan adj adjEntry n) ⟨⟨id, hopcnt, fun _ => 0⟩, fun _ => 0⟩
  ((nodes n).foldl (fun route k => Function.update route (index k k n) k) s.route,
    (nodes n).foldl (fun entry k => Function.update entry (index k k n) 0) s.entry)

end EntryScan

structure EntryLogic (K E : Type*) extends RouteLogic K where
  entry : ℕ → E
  routeEntry : ℕ → E

namespace EntryLogic

variable {K E : Type*} [LinearOrder K] [Add K] [NatCast K] [Zero E]

def init : EntryLogic K E := ⟨RouteLogic.init, fun _ => 0, fun _ => 0⟩

def alloc (n : ℕ) (s : EntryLogic K E) : Option (EntryLogic K E) :=
  (s.toRouteLogic.alloc n).map fun t => { s with toRouteLogic := t, entry := fun _ => 0 }

/-- The costs are copied to the larger matrix. -/
def check (n : ℕ) (s : EntryLogic K E) : Option (EntryLogic K E) :=
  if n < s.size then some s
  else
    let m := RouteLogic.doubled n (n + 1) (if s.size = 0 then 16 else s.size)
    (s.alloc m).map fun t => { t with adj := RouteLogic.copy s.adj s.size m t.adj }

def insert (src dst : ℕ) (cost : K) (s : EntryLogic K E) : Option (EntryLogic K E) := do
  let s ← s.check src
  let s ← s.check dst
  some { s with adj := Function.update s.adj (index src dst s.size) cost }

/-- The `insert` with an entry. -/
def insertEntry (src dst : ℕ) (cost : K) (entry : E) (s : EntryLogic K E) :
    Option (EntryLogic K E) := do
  let s ← s.check src
  let s ← s.check dst
  some { s with
    adj := Function.update s.adj (index src dst s.size) cost
    entry := Function.update s.entry (index src dst s.size) entry }

def computeRoutes (hopcnt : ℕ → K) (s : EntryLogic K E) : EntryLogic K E :=
  let r := EntryScan.routes s.adj s.entry s.size hopcnt
  { s with route := some r.1, routeEntry := r.2 }

/-- The entry of a route, for nodes numbered as in the matrix. -/
def nextEntry (s : EntryLogic K E) (src dst : ℕ) : E := s.routeEntry (index src dst s.size)

/-- The cost of a link in the matrix. -/
def costAt (s : EntryLogic K E) (u v : ℕ) : K :=
  if u < s.size ∧ v < s.size then s.adj (index u v s.size) else infinity K

/-- The entry of a link in the matrix. -/
def entryAt (s : EntryLogic K E) (u v : ℕ) : E :=
  if u < s.size ∧ v < s.size then s.entry (index u v s.size) else 0

end EntryLogic

/-- The two `insert`s. -/
inductive EntryOp (K E : Type*) where
  | insert (src dst : ℕ) (cost : K)
  | insertEntry (src dst : ℕ) (cost : K) (entry : E)

namespace EntryOp

variable {K E : Type*}

/-- The larger node number. -/
def node : EntryOp K E → ℕ
  | .insert src dst _ => max src dst
  | .insertEntry src dst _ _ => max src dst

/-- The cost of the link from `u` to `v` from then on. -/
def costOf (u v : ℕ) (x : K) : EntryOp K E → K
  | .insert src dst cost => if src = u ∧ dst = v then cost else x
  | .insertEntry src dst cost _ => if src = u ∧ dst = v then cost else x

/-- The entry that is given for the link from `u` to `v`. -/
def gives (u v : ℕ) : EntryOp K E → Option E
  | .insert _ _ _ => none
  | .insertEntry src dst _ entry => if src = u ∧ dst = v then some entry else none

variable [LinearOrder K] [Add K] [NatCast K] [Zero E]

def apply (s : EntryLogic K E) : EntryOp K E → Option (EntryLogic K E)
  | .insert src dst cost => s.insert src dst cost
  | .insertEntry src dst cost entry => s.insertEntry src dst cost entry

end EntryOp

namespace EntryLogic

open EntryOp

variable {K E : Type*} [LinearOrder K] [Add K] [NatCast K] [Zero E]

/-- The cost last given for a link. -/
def lastCost (os : List (EntryOp K E)) (u v : ℕ) : K := os.foldl (fun x o => o.costOf u v x) (infinity K)

/-- The entry last given for a link. -/
def lastEntry (os : List (EntryOp K E)) (u v : ℕ) : E := os.foldl (fun x o => (o.gives u v).getD x) 0

def insertAll (os : List (EntryOp K E)) : Option (EntryLogic K E) := os.foldlM apply init

/-- The routes use what was last given for each link, and the entry of a route to another node is
that of the link to the next hop. -/
def Right (os : List (EntryOp K E)) : Prop :=
  ∃ s, insertAll os = some s ∧
    (∀ u v, s.costAt u v = lastCost os u v ∧ s.entryAt u v = lastEntry os u v) ∧
    ∀ hopcnt k d, 0 < k → k < s.size → 0 < d → d < s.size → d ≠ k →
      (s.computeRoutes hopcnt).nextHop k d ≠ 0 →
      (s.computeRoutes hopcnt).nextEntry k d =
        lastEntry os k ((s.computeRoutes hopcnt).nextHop k d)

/-- The size of a matrix for the node `n`. -/
def room (n : ℕ) : ℕ := 2 ^ max 4 n.size

def maxNode (os : List (EntryOp K E)) : ℕ := os.foldl (fun n o => max n o.node) 0

/-- The matrix grows when the link has an entry, and none is given for the link from then on. -/
def Loses (os : List (EntryOp K E)) (u v : ℕ) : Prop :=
  ∃ p o c, os = p ++ o :: c ∧ room (maxNode p) ≤ o.node ∧ lastEntry p u v ≠ 0 ∧
    ∀ o' ∈ o :: c, o'.gives u v = none

end EntryLogic

theorem ite_update_apply {A : Type*} {p : Prop} [Decidable p] {x : ℕ → A} {i j : ℕ} {a : A} :
    (if p then Function.update x i a else x) j = if j = i ∧ p then a else x j := by
  by_cases hp : p
  · rw [if_pos hp, update_apply]
    simp only [hp, and_true]
  · rw [if_neg hp, if_neg (fun h => hp h.2)]

namespace EntryScan

open RouteScan (nodes mem_nodes)

variable {K E : Type*} [LinearOrder K] {adj : ℕ → K} {adjEntry : ℕ → E} {n k d o w : ℕ}
  {s : EntryScan K E}

/-- The entry of a route is that of the link to its next hop. -/
def Entered (adjEntry : ℕ → E) (n : ℕ) (s : EntryScan K E) : Prop :=
  ∀ k ∈ nodes n, ∀ d ∈ nodes n, s.route (index k d n) ≠ 0 → s.route (index k d n) ∈ nodes n ∧
    s.entry (index k d n) = adjEntry (index k (s.route (index k d n)) n)

section

variable (h : Entered adjEntry n s)
include h

theorem Entered.setNeighbour [NatCast K] (hw : w ∈ nodes n) :
    Entered adjEntry n (s.setNeighbour adj adjEntry n k w) := by
  intro k' hk' d hd
  have hroute : (s.setNeighbour adj adjEntry n k w).route (index k' d n) = _ :=
    RouteScan.setNeighbour_route
  have hentry : (s.setNeighbour adj adjEntry n k w).entry (index k' d n) = _ := ite_update_apply
  rw [hroute, hentry]
  by_cases hset : index k' d n = index k w n ∧ s.parent w ≠ k ∧ adj (index k w n) ≠ infinity K
  · obtain ⟨rfl, rfl⟩ := (index_inj (mem_nodes.1 hd).2 (mem_nodes.1 hw).2).1 hset.1
    rw [if_pos hset, if_pos hset]
    exact fun _ => ⟨hw, rfl⟩
  · rw [if_neg hset, if_neg hset]
    exact h k' hk' d hd

variable [Add K]

theorem Entered.update (hw : w ∈ nodes n) (ho : o ∈ nodes n) :
    Entered adjEntry n (s.update adj n k o w) := by
  intro k' hk' d hd
  have hroute : (s.update adj n k o w).route (index k' d n) = _ := RouteScan.update_route
  have hentry : (s.update adj n k o w).entry (index k' d n) = _ := ite_update_apply
  rw [hroute, hentry]
  by_cases hset : index k' d n = index k w n ∧ s.parent w ≠ k ∧
      s.hopcnt o + adj (index o w n) < s.hopcnt w
  · obtain ⟨rfl, rfl⟩ := (index_inj (mem_nodes.1 hd).2 (mem_nodes.1 hw).2).1 hset.1
    rw [if_pos hset, if_pos hset]
    exact h k' hk' o ho
  · rw [if_neg hset, if_neg hset]
    exact h k' hk' d hd

variable [NatCast K]

theorem Entered.extend : Entered adjEntry n (s.extend adj n k) := by
  unfold EntryScan.extend
  dsimp only
  split_ifs with hnone
  · exact h
  · refine foldlRecOn _ _ (motive := Entered adjEntry n) h fun t ht w hw => ht.update hw ?_
    obtain ⟨hmem, -⟩ := RouteScan.foldl_nearest k
      { s.toRouteScan with hopcnt := Function.update s.hopcnt 0 (infinity K) } (nodes n) 0
    exact (hmem.resolve_left hnone).1

theorem Entered.scan : Entered adjEntry n (s.scan adj adjEntry n k) := by
  refine foldlRecOn _ _ (motive := Entered adjEntry n) ?_ fun t ht _ _ => ht.extend
  exact foldlRecOn _ _ (motive := Entered adjEntry n) h fun t ht w hw => ht.setNeighbour hw

end

variable [Add K] [NatCast K]

theorem foldl_diagonal_of_ne {A : Type*} {f x : ℕ → A} {l : List ℕ} (hl : ∀ v ∈ l, v ∈ nodes n)
    (hd : d ∈ nodes n) (hdk : d ≠ k) :
    l.foldl (fun x k => Function.update x (index k k n) (f k)) x (index k d n) =
      x (index k d n) := by
  induction l generalizing x with
  | nil => rfl
  | cons v l ih =>
    rw [forall_mem_cons] at hl
    rw [foldl_cons, ih hl.2, update_of_ne]
    intro heq
    obtain ⟨rfl, rfl⟩ := (index_inj (mem_nodes.1 hd).2 (mem_nodes.1 hl.1).2).1 heq
    exact hdk rfl

theorem routes_entry [Zero E] {hopcnt : ℕ → K} (hk : k ∈ nodes n) (hd : d ∈ nodes n) (hdk : d ≠ k)
    (hhop : (routes adj adjEntry n hopcnt).1 (index k d n) ≠ 0) :
    (routes adj adjEntry n hopcnt).1 (index k d n) ∈ nodes n ∧
      (routes adj adjEntry n hopcnt).2 (index k d n) =
        adjEntry (index k ((routes adj adjEntry n hopcnt).1 (index k d n)) n) := by
  have hentered : Entered adjEntry n ((nodes n).foldl (scan adj adjEntry n)
      ⟨⟨id, hopcnt, fun _ => 0⟩, fun _ => 0⟩) := by
    refine foldlRecOn _ _ (motive := Entered adjEntry n) ?_ fun t ht _ _ => ht.scan
    exact fun _ _ _ _ hne => absurd rfl hne
  unfold routes at hhop ⊢
  dsimp only at hhop ⊢
  rw [foldl_diagonal_of_ne (fun _ h => h) hd hdk] at hhop ⊢
  obtain ⟨hmem, heq⟩ := hentered k hk d hd hhop
  exact ⟨hmem, (foldl_diagonal_of_ne (fun _ h => h) hd hdk).trans heq⟩

end EntryScan

namespace EntryLogic

open EntryOp

variable {K E : Type*} {s s' : EntryLogic K E} {M n u v src dst : ℕ} {os : List (EntryOp K E)}
  {o : EntryOp K E} {cost : K} {entry : E}

theorem size_max (a b : ℕ) : (max a b).size = max a.size b.size :=
  Monotone.map_max (f := Nat.size) fun _ _ h => Nat.size_le_size h

theorem lt_room (n : ℕ) : n < room n := Nat.size_le.1 (le_max_right _ _)

theorem le_room {a b : ℕ} (h : a ≤ b) : room a ≤ room b :=
  Nat.pow_le_pow_right (by decide) (max_le_max le_rfl (Nat.size_le_size h))

theorem room_max_of_lt (h : n < room M) : room (max M n) = room M := by
  have hsize : n.size ≤ max 4 M.size := Nat.size_le.2 h
  rw [room, size_max, ← max_assoc, max_eq_left hsize]
  rfl

theorem doubled_pow {fuel j : ℕ} (h : n < 2 ^ j + fuel) :
    RouteLogic.doubled n fuel (2 ^ j) = 2 ^ max j n.size := by
  induction fuel generalizing j with
  | zero => rw [RouteLogic.doubled, max_eq_left (Nat.size_le.2 h)]
  | succ fuel ih =>
    unfold RouteLogic.doubled
    split_ifs with hle
    · have hlt : j < n.size := Nat.lt_size.2 hle
      have hpow : 2 ^ (j + 1) = 2 ^ j + 2 ^ j := by rw [Nat.pow_succ, Nat.mul_two]
      have hpos := Nat.two_pow_pos j
      rw [Nat.shiftLeft_eq, ← Nat.pow_add, ih (by omega), max_eq_right hlt, max_eq_right hlt.le]
    · rw [max_eq_left (Nat.size_le.2 (by omega))]

theorem doubled_room (M n : ℕ) : RouteLogic.doubled n (n + 1) (room M) = room (max M n) := by
  have hlt : n < room M + (n + 1) := by omega
  rw [room, doubled_pow hlt, room, size_max, max_assoc]

theorem room_fits (h : n < 32768) : room n * room n < 2 ^ 31 := by
  have hsize : n.size ≤ 15 := Nat.size_le.2 h
  have hle : room n ≤ 2 ^ 15 := Nat.pow_le_pow_right (by decide) (by omega)
  calc room n * room n ≤ 2 ^ 15 * 2 ^ 15 := Nat.mul_le_mul hle hle
    _ < 2 ^ 31 := by decide

theorem not_room_fits (h : 32768 ≤ n) : ¬room n * room n < 2 ^ 31 := by
  have hsize : 15 < n.size := Nat.lt_size.2 h
  have hle : 2 ^ 16 ≤ room n := Nat.pow_le_pow_right (by decide) (by omega)
  have hmul := Nat.mul_le_mul hle hle
  omega

/-- The size for the nodes up to `M`, and no size at first. -/
def Sized (s : EntryLogic K E) (M : ℕ) : Prop := s.size = 0 ∧ M = 0 ∨ s.size = room M

theorem Sized.start (h : Sized s M) : (if s.size = 0 then 16 else s.size) = room M := by
  rcases h with ⟨hzero, rfl⟩ | hsize
  · rw [if_pos hzero]
    rfl
  · rw [if_neg (by rw [hsize]; exact (Nat.zero_le M).trans_lt (lt_room M) |>.ne'), hsize]

theorem Sized.le (h : Sized s M) : s.size ≤ room M := by
  rcases h with ⟨hzero, rfl⟩ | hsize
  · rw [hzero]
    exact Nat.zero_le _
  · exact hsize.le

theorem maxNode_concat : maxNode (os ++ [o]) = max (maxNode os) o.node := foldl_concat ..

section

variable [NatCast K]

theorem costAt_write (hsrc : src < s.size) (hdst : dst < s.size) (e : ℕ → E) :
    costAt { s with adj := Function.update s.adj (index src dst s.size) cost, entry := e } u v =
      if src = u ∧ dst = v then cost else s.costAt u v := by
  unfold costAt
  dsimp only
  by_cases huv : u < s.size ∧ v < s.size
  · rw [if_pos huv, if_pos huv, update_apply]
    simp only [index_inj huv.2 hdst, eq_comm]
  · rw [if_neg huv, if_neg huv, if_neg]
    rintro ⟨rfl, rfl⟩
    exact huv ⟨hsrc, hdst⟩

theorem lastCost_concat : lastCost (os ++ [o]) u v = o.costOf u v (lastCost os u v) :=
  foldl_concat ..

end

section

variable [Zero E]

theorem entryAt_write (hsrc : src < s.size) (hdst : dst < s.size) (a : ℕ → K) :
    entryAt { s with adj := a, entry := Function.update s.entry (index src dst s.size) entry } u v =
      if src = u ∧ dst = v then entry else s.entryAt u v := by
  unfold entryAt
  dsimp only
  by_cases huv : u < s.size ∧ v < s.size
  · rw [if_pos huv, if_pos huv, update_apply]
    simp only [index_inj huv.2 hdst, eq_comm]
  · rw [if_neg huv, if_neg huv, if_neg]
    rintro ⟨rfl, rfl⟩
    exact huv ⟨hsrc, hdst⟩

theorem lastEntry_concat : lastEntry (os ++ [o]) u v = (o.gives u v).getD (lastEntry os u v) :=
  foldl_concat ..

theorem not_loses_of_gives (h : o.gives u v = some entry) : ¬Loses (os ++ [o]) u v := by
  rintro ⟨p, o', c, heq, -, -, hnone⟩
  have hlast : o ∈ o' :: c := by
    have hmem := getLast?_concat (a := o) (l := os)
    rw [heq, getLast?_append_of_ne_nil _ (cons_ne_nil _ _)] at hmem
    exact mem_of_getLast? hmem
  rw [hnone o hlast] at h
  cases h

theorem loses_concat_iff (h : o.gives u v = none) : Loses (os ++ [o]) u v ↔
    Loses os u v ∨ room (maxNode os) ≤ o.node ∧ lastEntry os u v ≠ 0 := by
  constructor
  · rintro ⟨p, o', c, heq, hgrow, hentry, hnone⟩
    rcases eq_nil_or_concat' c with rfl | ⟨c, x, rfl⟩
    · obtain ⟨rfl, hx⟩ := append_inj' heq rfl
      obtain rfl := singleton_inj.1 hx
      exact Or.inr ⟨hgrow, hentry⟩
    · have heq' : os ++ [o] = (p ++ o' :: c) ++ [x] := by simpa using heq
      obtain ⟨rfl, -⟩ := append_inj' heq' rfl
      refine Or.inl ⟨p, o', c, rfl, hgrow, hentry, fun y hy => hnone y ?_⟩
      exact cons_subset_cons _ (subset_append_left _ _) hy
  · rintro (⟨p, o', c, rfl, hgrow, hentry, hnone⟩ | ⟨hgrow, hentry⟩)
    · refine ⟨p, o', c ++ [o], by simp, hgrow, hentry, fun y hy => ?_⟩
      rw [← cons_append, mem_append, mem_singleton] at hy
      rcases hy with hy | rfl
      · exact hnone y hy
      · exact h
    · refine ⟨os, o, [], rfl, hgrow, hentry, fun y hy => ?_⟩
      rw [mem_singleton.1 hy]
      exact h

end

variable [NatCast K] [Zero E]

theorem alloc_of_fits (h : n * n < 2 ^ 31) : s.alloc n =
    some { s with size := n, adj := fun _ => infinity K, entry := fun _ => 0 } := by
  rw [alloc, RouteLogic.alloc, if_pos h]
  rfl

theorem insertAll_concat : insertAll (os ++ [o]) = (insertAll os).bind fun s => o.apply s := by
  rw [insertAll, foldlM_append]
  refine congrArg _ (funext fun s => ?_)
  rw [foldlM_cons]
  exact bind_pure _

/-- The matrix after a sequence of operations. -/
structure After (os : List (EntryOp K E)) (s : EntryLogic K E) : Prop where
  sized : s.Sized (maxNode os)
  cost : ∀ u v, s.costAt u v = lastCost os u v
  entry : ∀ u v, s.entryAt u v = lastEntry os u v ∧ ¬Loses os u v ∨
    s.entryAt u v = 0 ∧ lastEntry os u v ≠ 0 ∧ Loses os u v

theorem after_init : After [] (init : EntryLogic K E) := by
  refine ⟨Or.inl ⟨rfl, rfl⟩, fun u v => ?_, fun u v => Or.inl ⟨?_, ?_⟩⟩
  · exact if_neg fun h => Nat.not_lt_zero _ h.1
  · exact if_neg fun h => Nat.not_lt_zero _ h.1
  · rintro ⟨p, o, c, heq, -⟩
    exact absurd heq.symm (append_ne_nil_of_right_ne_nil _ (cons_ne_nil _ _))

theorem Sized.check (h : Sized s M) (hM : M < 32768) (hn : n < 32768) : ∃ t, s.check n = some t ∧
    t.size = room (max M n) ∧ (∀ u v, t.costAt u v = s.costAt u v) ∧
    ∀ u v, t.entryAt u v = if room M ≤ n then 0 else s.entryAt u v := by
  unfold EntryLogic.check
  by_cases hlt : n < s.size
  · have hroom : n < room M := hlt.trans_le h.le
    refine ⟨s, if_pos hlt, ?_, fun u v => rfl, fun u v => (if_neg hroom.not_ge).symm⟩
    rcases h with ⟨hzero, -⟩ | hsize
    · exact absurd hlt (by omega)
    · rw [hsize, room_max_of_lt hroom]
  · have hfits : room (max M n) * room (max M n) < 2 ^ 31 := room_fits (max_lt hM hn)
    have hle : s.size ≤ room (max M n) := h.le.trans (le_room (le_max_left _ _))
    have hempty : ∀ u v, room M ≤ n ∨ ¬(u < s.size ∧ v < s.size) := by
      intro u v
      rcases h with ⟨hzero, -⟩ | hsize
      · exact Or.inr fun huv => by omega
      · exact Or.inl (by omega)
    rw [if_neg hlt]
    dsimp only
    rw [h.start, doubled_room, alloc_of_fits hfits]
    refine ⟨_, rfl, rfl, fun u v => ?_, fun u v => ?_⟩
    · unfold costAt
      by_cases huv : u < room (max M n) ∧ v < room (max M n)
      · refine (if_pos huv).trans ?_
        change RouteLogic.copy s.adj s.size (room (max M n)) (fun _ => infinity K)
          (index u v (room (max M n))) = _
        rw [RouteLogic.copy, RouteLogic.copyRows_eq hle huv.2]
        simp only [mem_range]
      · refine (if_neg huv).trans (if_neg fun hold => huv ?_).symm
        exact ⟨hold.1.trans_le hle, hold.2.trans_le hle⟩
    · have hzero : (0 : E) = if room M ≤ n then 0 else s.entryAt u v := by
        unfold entryAt
        rcases hempty u v with hroom | hout
        · rw [if_pos hroom]
        · rw [if_neg hout, ite_self]
      rw [← hzero]
      exact ite_self _

theorem Sized.check_none (h : Sized s M) (hM : M < 32768) (hn : 32768 ≤ n) :
    s.check n = none := by
  have hsize : M.size ≤ 15 := Nat.size_le.2 hM
  have hroom : room M ≤ 2 ^ 15 := Nat.pow_le_pow_right (by decide) (by omega)
  have hlt : ¬n < s.size := by
    have hle := h.le
    omega
  unfold EntryLogic.check
  rw [if_neg hlt]
  dsimp only
  rw [h.start, doubled_room, alloc, RouteLogic.alloc,
    if_neg (not_room_fits (hn.trans (le_max_right _ _)))]
  rfl

theorem Sized.checks (h : Sized s M) (hM : M < 32768) (hsrc : src < 32768) (hdst : dst < 32768) :
    ∃ t t', s.check src = some t ∧ t.check dst = some t' ∧ t'.size = room (max M (max src dst)) ∧
      (∀ u v, t'.costAt u v = s.costAt u v) ∧
      ∀ u v, t'.entryAt u v = if room M ≤ max src dst then 0 else s.entryAt u v := by
  obtain ⟨t, ht, hsize, hcost, hentry⟩ := h.check hM hsrc
  have hsized : t.Sized (max M src) := Or.inr hsize
  obtain ⟨t', ht', hsize', hcost', hentry'⟩ := hsized.check (max_lt hM hsrc) hdst
  refine ⟨t, t', ht, ht', ?_, fun u v => (hcost' u v).trans (hcost u v), fun u v => ?_⟩
  · rw [hsize', max_assoc]
  · rw [hentry', hentry]
    by_cases hgrow : room M ≤ src
    · rw [if_pos hgrow, if_pos (hgrow.trans (le_max_left _ _)), ite_self]
    · rw [if_neg hgrow, room_max_of_lt (not_le.1 hgrow)]
      simp only [le_max_iff, hgrow, false_or]

theorem Sized.apply (h : Sized s M) (hM : M < 32768) (ho : o.node < 32768) :
    ∃ t, o.apply s = some t ∧ t.size = room (max M o.node) ∧
      (∀ u v, t.costAt u v = o.costOf u v (s.costAt u v)) ∧
      ∀ u v, t.entryAt u v =
        (o.gives u v).getD (if room M ≤ o.node then 0 else s.entryAt u v) := by
  cases o with
  | insert src dst cost =>
    obtain ⟨hsrc, hdst⟩ := max_lt_iff.1 ho
    obtain ⟨t, t', ht, ht', hsize, hcost, hentry⟩ := h.checks hM hsrc hdst
    have hroom := lt_room (max M (max src dst))
    rw [← hsize, max_lt_iff, max_lt_iff] at hroom
    refine ⟨{ t' with adj := Function.update t'.adj (index src dst t'.size) cost }, ?_, hsize,
      fun u v => ?_, fun u v => hentry u v⟩
    · rw [EntryOp.apply, EntryLogic.insert, ht, bind_eq_bind, bind_some, ht']
      rfl
    · rw [← hcost]
      exact costAt_write hroom.2.1 hroom.2.2 t'.entry
  | insertEntry src dst cost entry =>
    obtain ⟨hsrc, hdst⟩ := max_lt_iff.1 ho
    obtain ⟨t, t', ht, ht', hsize, hcost, hentry⟩ := h.checks hM hsrc hdst
    have hroom := lt_room (max M (max src dst))
    rw [← hsize, max_lt_iff, max_lt_iff] at hroom
    refine ⟨{ t' with
      adj := Function.update t'.adj (index src dst t'.size) cost
      entry := Function.update t'.entry (index src dst t'.size) entry }, ?_, hsize,
      fun u v => ?_, fun u v => ?_⟩
    · rw [EntryOp.apply, EntryLogic.insertEntry, ht, bind_eq_bind, bind_some, ht']
      rfl
    · rw [← hcost]
      exact costAt_write hroom.2.1 hroom.2.2 _
    · rw [gives, node, ← hentry]
      refine (entryAt_write hroom.2.1 hroom.2.2 _).trans ?_
      split_ifs <;> rfl

theorem Sized.apply_none (h : Sized s M) (hM : M < 32768) (ho : 32768 ≤ o.node) :
    o.apply s = none := by
  have hchecks : ∀ src dst, 32768 ≤ max src dst →
      ((s.check src).bind fun t => t.check dst) = none := by
    intro src dst hlarge
    by_cases hsrc : src < 32768
    · obtain ⟨t, ht, hsize, -⟩ := h.check hM hsrc
      have hsized : t.Sized (max M src) := Or.inr hsize
      have hdst : 32768 ≤ dst := (le_max_iff.1 hlarge).resolve_left hsrc.not_ge
      rw [ht, bind_some, hsized.check_none (max_lt hM hsrc) hdst]
    · rw [h.check_none hM (not_lt.1 hsrc)]
      rfl
  cases o with
  | insert src dst cost =>
    rw [EntryOp.apply, EntryLogic.insert]
    simp only [bind_eq_bind]
    rw [← bind_assoc, hchecks src dst ho]
    rfl
  | insertEntry src dst cost entry =>
    rw [EntryOp.apply, EntryLogic.insertEntry]
    simp only [bind_eq_bind]
    rw [← bind_assoc, hchecks src dst ho]
    rfl

theorem After.step (h : After os s) (hM : maxNode os < 32768) (ho : o.node < 32768) :
    ∃ t, o.apply s = some t ∧ After (os ++ [o]) t := by
  obtain ⟨t, ht, hsize, hcost, hentry⟩ := h.sized.apply hM ho
  refine ⟨t, ht, Or.inr ?_, fun u v => ?_, fun u v => ?_⟩
  · rw [hsize, maxNode_concat]
  · rw [hcost, h.cost, lastCost_concat]
  · rw [hentry, lastEntry_concat]
    cases hgives : o.gives u v with
    | some entry => exact Or.inl ⟨rfl, not_loses_of_gives hgives⟩
    | none =>
      rw [loses_concat_iff hgives, getD_none, getD_none]
      by_cases hgrow : room (maxNode os) ≤ o.node
      · rw [if_pos hgrow]
        rcases h.entry u v with ⟨-, hkept⟩ | ⟨-, hne, hlost⟩
        · by_cases hzero : lastEntry os u v = 0
          · refine Or.inl ⟨hzero.symm, ?_⟩
            rintro (hlost | ⟨-, hne⟩)
            · exact hkept hlost
            · exact hne hzero
          · exact Or.inr ⟨rfl, hzero, Or.inr ⟨hgrow, hzero⟩⟩
        · exact Or.inr ⟨rfl, hne, Or.inl hlost⟩
      · rw [if_neg hgrow]
        simpa only [hgrow, false_and, or_false] using h.entry u v

theorem exists_after (h : ∀ o ∈ os, o.node < 32768) :
    ∃ s, insertAll os = some s ∧ After os s ∧ maxNode os < 32768 := by
  induction os using reverseRecOn with
  | nil => exact ⟨init, rfl, after_init, (by decide : 0 < 32768)⟩
  | append_singleton os o ih =>
    rw [forall_mem_append, forall_mem_singleton] at h
    obtain ⟨s, hs, hafter, hM⟩ := ih h.1
    obtain ⟨t, ht, hafter'⟩ := hafter.step hM h.2
    refine ⟨t, ?_, hafter', ?_⟩
    · rw [insertAll_concat, hs, bind_some, ht]
    · rw [maxNode_concat]
      exact max_lt hM h.2

theorem node_lt_of_insertAll (hs : insertAll os = some s) : ∀ o ∈ os, o.node < 32768 := by
  induction os using reverseRecOn generalizing s with
  | nil => exact fun o ho => absurd ho not_mem_nil
  | append_singleton os o ih =>
    rw [insertAll_concat, bind_eq_some_iff] at hs
    obtain ⟨t, ht, hstep⟩ := hs
    rw [forall_mem_append, forall_mem_singleton]
    refine ⟨ih ht, ?_⟩
    obtain ⟨t', ht', hafter, hM⟩ := exists_after (ih ht)
    obtain rfl := some.inj (ht.symm.trans ht')
    by_contra hlarge
    rw [hafter.sized.apply_none hM (not_lt.1 hlarge)] at hstep
    cases hstep

variable [LinearOrder K] [Add K]

theorem Loses.not_right (h : Loses os u v) : ¬Right os := by
  rintro ⟨s, hs, htable, -⟩
  obtain ⟨s', hs', hafter, -⟩ := exists_after (node_lt_of_insertAll hs)
  obtain rfl := some.inj (hs.symm.trans hs')
  rcases hafter.entry u v with ⟨-, hkept⟩ | ⟨hzero, hne, -⟩
  · exact hkept h
  · exact hne ((htable u v).2.symm.trans hzero)

/-- The routes are right when the matrix can be allocated and does not grow while a link has an
entry that it is not given again. -/
theorem right_iff_not_loses (os : List (EntryOp K E)) : Right os ↔
    (∀ o ∈ os, o.node < 32768) ∧ ∀ u v, ¬Loses os u v := by
  constructor
  · rintro hright
    have hkept : ∀ u v, ¬Loses os u v := fun u v hlost => hlost.not_right hright
    obtain ⟨s, hs, -⟩ := hright
    exact ⟨node_lt_of_insertAll hs, hkept⟩
  · rintro ⟨hnodes, hkept⟩
    obtain ⟨s, hs, hafter, -⟩ := exists_after hnodes
    have hentry : ∀ u v, s.entryAt u v = lastEntry os u v := by
      intro u v
      rcases hafter.entry u v with ⟨heq, -⟩ | ⟨-, -, hlost⟩
      · exact heq
      · exact absurd hlost (hkept u v)
    refine ⟨s, hs, fun u v => ⟨hafter.cost u v, hentry u v⟩,
      fun hopcnt k d hk hks hd hds hdk hhop => ?_⟩
    obtain ⟨hmem, heq⟩ := EntryScan.routes_entry (RouteScan.mem_nodes.2 ⟨hk, hks⟩)
      (RouteScan.mem_nodes.2 ⟨hd, hds⟩) hdk hhop
    rw [← hentry]
    exact heq.trans (if_pos ⟨hks, (RouteScan.mem_nodes.1 hmem).2⟩).symm

/-- The first growth comes after the entry. -/
theorem not_right_grown :
    ¬Right [EntryOp.insertEntry 1 2 (1 : ℤ) 7, EntryOp.insert 1 16 (1 : ℤ)] := by
  refine Loses.not_right (u := 1) (v := 2) ⟨[_], _, [], rfl, ?_, ?_, ?_⟩
  · decide
  · decide
  · simp [gives]

end EntryLogic

end Ns2
