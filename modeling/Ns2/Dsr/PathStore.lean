import Ns2.Dsr.PathArray

/-! The paths of a node, and the operations on them: when a path stays inside its array, with its
index on the same host. -/

namespace Ns2

open Option Function

namespace Dsr

/-- `make` and `ofHeader` construct a path anew; `reverse`, `copy` and `assign` have their result in
the first path they name. -/
inductive PathOp (V : Type*) where
  | make (x : V) (route : List ID)
  | ofHeader (x : V) (addrs : List ID) (curAddr : ℤ)
  | appendToPath (x : V) (id : ID)
  | appendPath (x y : V)
  | removeSection (x : V) (start stop : ℕ)
  | reverse (x y : V)
  | reverseInPlace (x : V)
  | setLength (x : V) (l : ℕ)
  | copy (x y : V)
  | assign (x y : V)

namespace PathOp

variable {V : Type*} [DecidableEq V]

/-- The path that an operation changes. -/
def target : PathOp V → V
  | make x _ | ofHeader x _ _ | appendToPath x _ | appendPath x _ | removeSection x _ _
  | reverse x _ | reverseInPlace x | setLength x _ | copy x _ | assign x _ => x

/-- The path that the new one is made from. -/
def source : PathOp V → Option V
  | make _ _ | ofHeader _ _ _ => none
  | appendToPath x _ | appendPath x _ | removeSection x _ _ | reverseInPlace x | setLength x _ =>
    some x
  | reverse _ y | copy _ y | assign _ y => some y

/-- What becomes of the target; a path that is appended to itself is read as it grows. -/
def apply (s : V → PathArray) : PathOp V → Option PathArray
  | make _ route => PathArray.ofRoute route
  | ofHeader _ addrs curAddr => PathArray.ofHeader addrs curAddr
  | appendToPath x id => (s x).appendToPath id
  | appendPath x y => (s x).appendPath (if x = y then id else fun _ => s y)
  | removeSection x start stop => (s x).removeSection start stop
  | reverse _ y => (s y).reverse
  | reverseInPlace x => (s x).reverseInPlace
  | setLength x l => (s x).setLength l
  | copy _ y => (s y).copy .new
  | assign x y => (s y).copy (s x)

/-- What the callers have to see to. -/
def Allowed (s : V → PathArray) : PathOp V → Prop
  | make _ route => route.length ≤ maxSrLen
  | ofHeader _ addrs _ => addrs.length ≤ maxSrLen
  | appendToPath x _ => (s x).len < maxSrLen
  | removeSection x start stop => start ≤ stop ∧ stop ≤ (s x).len
  | setLength x l => l ≤ (s x).len
  | _ => True

instance decidableAllowed (s : V → PathArray) : ∀ o : PathOp V, Decidable (o.Allowed s)
  | make _ route => inferInstanceAs (Decidable (route.length ≤ maxSrLen))
  | ofHeader _ addrs _ => inferInstanceAs (Decidable (addrs.length ≤ maxSrLen))
  | appendToPath x _ => inferInstanceAs (Decidable ((s x).len < maxSrLen))
  | removeSection x start stop => inferInstanceAs (Decidable (start ≤ stop ∧ stop ≤ (s x).len))
  | setLength x l => inferInstanceAs (Decidable (l ≤ (s x).len))
  | appendPath _ _ | reverse _ _ | reverseInPlace _ | copy _ _ | assign _ _ =>
    inferInstanceAs (Decidable True)

/-- Where the host at a place of the source is afterwards, if it is still there. -/
def place (s : V → PathArray) (i : ℕ) : PathOp V → Option ℕ
  | removeSection _ start stop =>
    if i < start then some i else if i < stop then none else some (i - (stop - start))
  | reverse _ y => some ((s y).len - 1 - i)
  | reverseInPlace x => some ((s x).len - 1 - i)
  | setLength _ l => if i < l then some i else none
  | _ => some i

end PathOp

/-- The operations on paths, which are `Path()` at the beginning. -/
def PathOp.machine (V : Type*) [DecidableEq V] : Machine (V → PathArray) (PathOp V) Unit where
  step s o := (o.apply s).map fun p => (Function.update s o.target p, ())

namespace PathArray

/-- The invariants of the representation, and a reversal that is undone by another. -/
structure Rep (p : PathArray) : Prop where
  len : p.len ≤ maxSrLen
  low : -1 ≤ p.curIndex
  high : p.curIndex ≤ p.len
  reverse : (p.reverse.bind reverse).map (fun q => (q.nodes, q.curIndex)) =
    some (p.nodes, p.curIndex)
  reverseInPlace : (p.reverseInPlace.bind reverseInPlace).map (fun q => (q.nodes, q.curIndex)) =
    some (p.nodes, p.curIndex)

variable {p q : PathArray}

theorem rep_iff : p.Rep ↔ p.len ≤ maxSrLen ∧ -1 ≤ p.curIndex ∧ p.curIndex ≤ p.len := by
  refine ⟨fun h => ⟨h.len, h.low, h.high⟩, fun ⟨hlen, hlow, hhigh⟩ => ⟨hlen, hlow, hhigh, ?_, ?_⟩⟩
  · obtain ⟨q, hq, hqlen, hqnodes, hqcur⟩ := exists_reverse hlen
    obtain ⟨r, hr, -, hrnodes, hrcur⟩ := exists_reverse (p := q) (by omega)
    rw [hq, bind_some, hr, map_some, hrnodes, hqnodes, List.reverse_reverse, hrcur,
      hqcur, hqlen]
    split_ifs
    · rfl
    · rw [sub_sub_cancel]
  · obtain ⟨q, hq, hqlen, hqnodes, hqcur⟩ := exists_reverseInPlace hlen
    obtain ⟨r, hr, -, hrnodes, hrcur⟩ := exists_reverseInPlace (p := q) (by omega)
    rw [hq, bind_some, hr, map_some, hrnodes, hqnodes, List.reverse_reverse, hrcur,
      hqcur, hqlen]
    split_ifs
    · rfl
    · rw [sub_sub_cancel]

/-- The index of `q` is on the host that the one of `p` is on, wherever `place` has it. -/
def SameHost (place : ℕ → Option ℕ) (p q : PathArray) : Prop :=
  ∀ i j : ℕ, p.curIndex = i → i < p.len → place i = some j →
    q.curIndex = j ∧ q.nodes[j]? = p.nodes[i]?

end PathArray

namespace PathOp

variable {V : Type*} [DecidableEq V] {s : V → PathArray} {o : PathOp V} {x y : V}

/-- The operation writes no place behind an array, every path keeps the invariants, and the index
stays on the same host when that is still on the path. -/
def Good (s : V → PathArray) (o : PathOp V) : Prop :=
  ∃ s', (machine V).step s o = some (s', ()) ∧ (∀ x, (s' x).Rep) ∧
    ∀ x, o.source = some x → PathArray.SameHost (fun i => o.place s i) (s x) (s' o.target)

/-- What is appended fits in the array, and is not the path itself; the index stays above -2 when a
section is removed around it, and on the path when the path is cut; a header has its index on its
route. -/
def Safe (s : V → PathArray) : PathOp V → Prop
  | ofHeader _ addrs curAddr => -1 ≤ curAddr ∧ curAddr ≤ addrs.length
  | appendPath x y =>
    if x = y then (s x).len = 0 else (s x).len + (s y).len ≤ maxSrLen
  | removeSection x start stop =>
    start < (s x).curIndex → (s x).curIndex < stop → stop - start ≤ (s x).curIndex + 1
  | setLength x l => (s x).curIndex ≤ l
  | _ => True

theorem step_eq (s : V → PathArray) (o : PathOp V) :
    (machine V).step s o = (o.apply s).map fun p => (Function.update s o.target p, ()) := rfl

theorem good_iff {p : PathArray} (hrep : ∀ x, (s x).Rep) (h : o.apply s = some p) :
    o.Good s ↔ p.Rep ∧
      ∀ x, o.source = some x → PathArray.SameHost (fun i => o.place s i) (s x) p := by
  have hstep : (machine V).step s o = some (Function.update s o.target p, ()) := by
    rw [step_eq, h]
    rfl
  constructor
  · rintro ⟨s', hs', hrep', hhost⟩
    obtain ⟨rfl, -⟩ := Prod.mk.inj (Option.some.inj (hstep.symm.trans hs'))
    have htarget := hrep' o.target
    rw [update_self] at htarget hhost
    exact ⟨htarget, hhost⟩
  · rintro ⟨hp, hhost⟩
    refine ⟨_, hstep, fun x => ?_, ?_⟩
    · obtain rfl | hx := eq_or_ne x o.target
      · rwa [update_self]
      · rw [update_of_ne hx]
        exact hrep x
    · rwa [update_self]

theorem not_good (h : o.apply s = none) : ¬o.Good s := by
  rintro ⟨s', hs', -⟩
  rw [step_eq, h] at hs'
  exact absurd hs' (by simp)

theorem sameHost_of_prefix {p q : PathArray} {l : List ID} (hlen : p.len ≤ maxSrLen)
    (hnodes : q.nodes = p.nodes ++ l) (hcur : q.curIndex = p.curIndex) :
    PathArray.SameHost some p q := by
  rintro i j hi hlt hij
  obtain rfl := Option.some.inj hij
  refine ⟨hcur.trans hi, ?_⟩
  rw [hnodes, List.getElem?_append_left (by rwa [PathArray.length_nodes hlen])]

section

variable (hrep : ∀ x, (s x).Rep)
include hrep

theorem good_make {route : List ID} (h : route.length ≤ maxSrLen) : (make x route).Good s := by
  obtain ⟨q, hq, -, -⟩ := PathArray.new.exists_fill (i := 0) route (by omega)
  have happly : (make x route).apply s =
      some { q with len := route.length, curIndex := 0 } := by
    rw [apply, PathArray.ofRoute, if_pos h, hq]
    rfl
  rw [good_iff hrep happly, PathArray.rep_iff]
  exact ⟨⟨h, by simp, by simp⟩, fun y hy => absurd hy (by simp [source])⟩

theorem good_ofHeader_iff {addrs : List ID} {curAddr : ℤ} (h : addrs.length ≤ maxSrLen) :
    (ofHeader x addrs curAddr).Good s ↔ -1 ≤ curAddr ∧ curAddr ≤ addrs.length := by
  obtain ⟨q, hq, -, -⟩ := PathArray.new.exists_fill (i := 0) addrs (by omega)
  have happly : (ofHeader x addrs curAddr).apply s =
      some { q with len := addrs.length, curIndex := curAddr } := by
    rw [apply, PathArray.ofHeader, if_pos h, hq]
    rfl
  rw [good_iff hrep happly, PathArray.rep_iff]
  constructor
  · exact fun hgood => hgood.1.2
  · exact fun hsafe => ⟨⟨h, hsafe⟩, fun y hy => absurd hy (by simp [source])⟩

theorem good_appendToPath {id : ID} (h : (s x).len < maxSrLen) : (appendToPath x id).Good s := by
  obtain ⟨q, hq, hlen, hnodes, hcur, -⟩ := PathArray.exists_appendToPath h id
  have hlow := (hrep x).low
  have hhigh := (hrep x).high
  rw [good_iff hrep (o := appendToPath x id) hq, PathArray.rep_iff]
  refine ⟨⟨by omega, by omega, by omega⟩, fun y hy => ?_⟩
  obtain rfl := Option.some.inj hy
  exact sameHost_of_prefix (hrep x).len hnodes hcur

theorem good_appendPath_iff : (appendPath x y).Good s ↔ (appendPath x y).Safe s := by
  have hlen := (hrep x).len
  have hlow := (hrep x).low
  have hhigh := (hrep x).high
  rw [Safe]
  split_ifs with hxy
  · have happly : (appendPath x y).apply s = (s x).appendFrom id (maxSrLen + 1) 0 := by
      rw [apply, if_pos hxy]
      rfl
    obtain hzero | hpos := Nat.eq_zero_or_pos (s x).len
    · rw [PathArray.appendFrom_of_le hzero.le] at happly
      refine iff_of_true ((good_iff hrep happly).2 ⟨hrep x, fun z hz => ?_⟩) hzero
      obtain rfl := Option.some.inj hz
      exact sameHost_of_prefix hlen (List.append_nil _).symm rfl
    · refine iff_of_false (not_good (happly.trans ?_)) hpos.ne'
      exact PathArray.appendFrom_self (by omega) hlen hpos
  · have happly : (appendPath x y).apply s =
        (s x).appendFrom (fun _ => s y) (maxSrLen + 1) 0 := by
      rw [apply, if_neg hxy]
      rfl
    obtain hfit | hover := Nat.lt_or_ge maxSrLen ((s x).len + (s y).len)
    · refine iff_of_false (not_good (happly.trans ?_)) (Nat.not_le.2 hfit)
      exact PathArray.appendFrom_eq_none (by omega) hlen (hrep y).len (by omega)
    · have hlen' := (hrep y).len
      obtain ⟨r, hr, hrlen, hnodes, hcur⟩ := PathArray.exists_appendFrom (p := s x) (q := s y)
        (maxSrLen + 1) 0 (by omega) hlen' (by omega)
      refine iff_of_true ((good_iff hrep (happly.trans hr)).2 ⟨?_, fun z hz => ?_⟩) hover
      · exact PathArray.rep_iff.2 ⟨by omega, by omega, by omega⟩
      · obtain rfl := Option.some.inj hz
        exact sameHost_of_prefix hlen hnodes hcur

theorem good_removeSection_iff {start stop : ℕ} (hle : start ≤ stop) (hstop : stop ≤ (s x).len) :
    (removeSection x start stop).Good s ↔ (removeSection x start stop).Safe s := by
  have hlen := (hrep x).len
  have hlow := (hrep x).low
  have hhigh := (hrep x).high
  rw [Safe]
  obtain rfl | hlt := hle.eq_or_lt
  · have happly : (removeSection x start start).apply s = some (s x) := by
      rw [apply, PathArray.removeSection, if_pos le_rfl]
    refine iff_of_true ((good_iff hrep happly).2 ⟨hrep x, fun z hz i j hi hlt hij => ?_⟩) (by omega)
    obtain rfl := Option.some.inj hz
    obtain rfl : i = j := by
      simp only [place] at hij
      split_ifs at hij <;> simpa using hij
    exact ⟨hi, rfl⟩
  · obtain ⟨q, hq, hqlen, hqnodes, hqcur⟩ := PathArray.exists_removeSection hlt hstop hlen
    rw [good_iff hrep (o := removeSection x start stop) hq, PathArray.rep_iff, hqcur]
    constructor
    · rintro ⟨⟨-, hlow', -⟩, -⟩ hcur -
      rw [if_pos hcur] at hlow'
      omega
    · intro hsafe
      refine ⟨⟨by omega, ?_, ?_⟩, fun z hz i j hi hlt' hij => ?_⟩
      · split_ifs with hcur <;> omega
      · split_ifs with hcur <;> omega
      · obtain rfl := Option.some.inj hz
        rw [hqcur, hi, hqnodes, List.getElem?_append, List.length_take,
          PathArray.length_nodes hlen, List.getElem?_take, List.getElem?_drop]
        simp only [place] at hij
        split_ifs at hij with hfirst hcut
        · obtain rfl := Option.some.inj hij
          rw [if_neg (by omega), if_pos (by omega), if_pos hfirst]
          exact ⟨rfl, rfl⟩
        · obtain rfl := Option.some.inj hij
          rw [if_pos (by omega), if_neg (by omega)]
          refine ⟨by omega, ?_⟩
          rw [show stop + (i - (stop - start) - min start (s x).len) = i by omega]

end

theorem sameHost_reverse {p q : PathArray} (hlen : p.len ≤ maxSrLen)
    (hnodes : q.nodes = p.nodes.reverse)
    (hcur : q.curIndex = if p.len = 0 then p.curIndex else p.len - 1 - p.curIndex) :
    PathArray.SameHost (fun i => some (p.len - 1 - i)) p q := by
  rintro i j hi hlt hij
  obtain rfl := Option.some.inj hij
  rw [hcur, if_neg (by omega), hi, hnodes, List.getElem?_reverse
    (by rw [PathArray.length_nodes hlen]; omega), PathArray.length_nodes hlen]
  refine ⟨by omega, ?_⟩
  rw [show p.len - 1 - (p.len - 1 - i) = i by omega]

theorem rep_reverse {p q : PathArray} (hrep : p.Rep) (hlen : q.len = p.len)
    (hcur : q.curIndex = if p.len = 0 then p.curIndex else p.len - 1 - p.curIndex) : q.Rep := by
  have hlen' := hrep.len
  have hlow := hrep.low
  have hhigh := hrep.high
  rw [PathArray.rep_iff, hcur, hlen]
  split_ifs with hzero
  · exact ⟨hlen', hlow, hhigh⟩
  · exact ⟨hlen', by omega, by omega⟩

section

variable (hrep : ∀ x, (s x).Rep)
include hrep

theorem good_reverse : (reverse x y).Good s := by
  obtain ⟨q, hq, hlen, hnodes, hcur⟩ := PathArray.exists_reverse (hrep y).len
  rw [good_iff hrep (o := reverse x y) hq]
  refine ⟨rep_reverse (hrep y) hlen hcur, fun z hz => ?_⟩
  obtain rfl := Option.some.inj hz
  exact sameHost_reverse (hrep y).len hnodes hcur

theorem good_reverseInPlace : (reverseInPlace x).Good s := by
  obtain ⟨q, hq, hlen, hnodes, hcur⟩ := PathArray.exists_reverseInPlace (hrep x).len
  rw [good_iff hrep (o := reverseInPlace x) hq]
  refine ⟨rep_reverse (hrep x) hlen hcur, fun z hz => ?_⟩
  obtain rfl := Option.some.inj hz
  exact sameHost_reverse (hrep x).len hnodes hcur

theorem good_setLength_iff {l : ℕ} (hl : l ≤ (s x).len) :
    (setLength x l).Good s ↔ (s x).curIndex ≤ l := by
  have hlen := (hrep x).len
  have happly : (setLength x l).apply s = some { s x with len := l } := by
    rw [apply, PathArray.setLength, if_pos (by omega)]
  rw [good_iff hrep happly, PathArray.rep_iff]
  constructor
  · exact fun hgood => hgood.1.2.2
  · refine fun hsafe => ⟨⟨by simp; omega, (hrep x).low, hsafe⟩, fun z hz i j hi hlt hij => ?_⟩
    obtain rfl := Option.some.inj hz
    simp only [place] at hij
    split_ifs at hij with hil
    obtain rfl := Option.some.inj hij
    refine ⟨hi, ?_⟩
    rw [PathArray.getElem?_nodes, PathArray.getElem?_nodes, if_pos hil, if_pos hlt]
    rfl

theorem good_copy {onto : PathArray} (hsrc : o.source = some y)
    (happly : o.apply s = (s y).copy onto) (hplace : ∀ i, o.place s i = some i) : o.Good s := by
  obtain ⟨q, hq, hlen, hpath⟩ := PathArray.exists_copy (hrep y).len onto
  have hnodes : q.nodes = (s y).nodes := congrArg Path.nodes hpath
  have hcur : q.curIndex = (s y).curIndex := congrArg Path.curIndex hpath
  rw [good_iff hrep (happly.trans hq), PathArray.rep_iff, hlen, hcur]
  refine ⟨⟨(hrep y).len, (hrep y).low, (hrep y).high⟩, fun z hz => ?_⟩
  obtain rfl := Option.some.inj (hsrc.symm.trans hz)
  simp only [hplace]
  exact sameHost_of_prefix (hrep y).len (hnodes.trans (List.append_nil _).symm) hcur

theorem good_iff_safe (ha : o.Allowed s) : o.Good s ↔ o.Safe s := by
  cases o with
  | make x route => exact iff_of_true (good_make hrep ha) trivial
  | ofHeader x addrs curAddr => exact good_ofHeader_iff hrep ha
  | appendToPath x id => exact iff_of_true (good_appendToPath hrep ha) trivial
  | appendPath x y => exact good_appendPath_iff hrep
  | removeSection x start stop => exact good_removeSection_iff hrep ha.1 ha.2
  | reverse x y => exact iff_of_true (good_reverse hrep) trivial
  | reverseInPlace x => exact iff_of_true (good_reverseInPlace hrep) trivial
  | setLength x l => exact good_setLength_iff hrep ha
  | copy x y => exact iff_of_true (good_copy hrep rfl rfl fun _ => rfl) trivial
  | assign x y => exact iff_of_true (good_copy hrep rfl rfl fun _ => rfl) trivial

end

/-- Paths that are all `Path()`. -/
def init (V : Type*) : V → PathArray := fun _ => .new

theorem rep_init {V : Type*} (x : V) : (init V x).Rep := by
  have hnew : PathArray.new.Rep := PathArray.rep_iff.2 ⟨by decide, by decide, by decide⟩
  exact hnew

theorem runsWith_good_iff {os : List (PathOp V)} (hos : (machine V).RunsWith Allowed (init V) os) :
    (machine V).RunsWith Good (init V) os ↔ (machine V).RunsWith Safe (init V) os := by
  refine hos.congr (fun s o hrep ha => good_iff_safe hrep ha) (fun s o s' a hrep _ hgood hs => ?_)
    rep_init
  obtain ⟨s₁, hs₁, hrep', -⟩ := hgood
  obtain ⟨rfl, -⟩ := Prod.mk.inj (Option.some.inj (hs₁.symm.trans hs))
  exact hrep'

def sampleOps : List (PathOp Bool) :=
  [.make true ([1, 2, 3].map fun a => .ofAddr a .ip), .reverse false true, .appendPath true false,
    .removeSection true 1 3]

theorem runsWith_good_iff_sample : (machine Bool).RunsWith Allowed (init Bool) sampleOps ∧
    ((machine Bool).RunsWith Good (init Bool) sampleOps ↔
      (machine Bool).RunsWith Safe (init Bool) sampleOps) :=
  ⟨by decide, runsWith_good_iff (by decide)⟩

/-- A path of one host is appended to a full one. -/
def overflowOps : List (PathOp Bool) :=
  [.make true (.replicate maxSrLen (.ofAddr 1 .ip)), .make false [.ofAddr 2 .ip],
    .appendPath true false]

theorem not_runsWith_good_overflow : ¬∀ os : List (PathOp Bool),
    (machine Bool).RunsWith Allowed (init Bool) os → (machine Bool).RunsWith Good (init Bool) os := by
  intro h
  have hgood := h overflowOps (by decide)
  have hlast := ((hgood.2 _ _ rfl).2 _ _ rfl).1
  refine not_good ?_ hlast
  exact isNone_iff_eq_none.1 (by decide)

end PathOp

end Dsr

end Ns2
