import Mathlib.Data.List.Nodup
import Ns2.Dtn.Buffer

/-! The buffer over any sequence of additions and cleanings: the hand-kept counter, the
capacity, the uids, and what one `add_bundle` can do to the list. -/

namespace Ns2

open Str List

namespace EpidemicRouting

/-- `BundleManager` counts `u_id` up from 0. -/
def Issued (b : TimedBundle) : Prop := 0 ≤ b.uId

theorem eraseLoop_eq (keep : StoredBundle → Option StoredBundle) (l : List StoredBundle) (n : ℤ) :
    eraseLoop keep l n =
      (l.filterMap keep, n - (l.length - (l.filterMap keep).length)) := by
  induction l generalizing n with
  | nil => simp [eraseLoop]
  | cons x l ih =>
    cases hx : keep x with
    | none =>
      simp only [eraseLoop, hx, ih, filterMap_cons_none hx, length_cons, Prod.mk.injEq,
        true_and]
      omega
    | some y =>
      simp only [eraseLoop, hx, ih, filterMap_cons_some hx, length_cons, Prod.mk.injEq,
        true_and]
      omega

theorem ids_filterMap_sublist {keep : StoredBundle → Option StoredBundle}
    (hkeep : ∀ x y, keep x = some y → y.id = x.id) (l : List StoredBundle) :
    ((l.filterMap keep).map StoredBundle.id).Sublist (l.map StoredBundle.id) := by
  induction l with
  | nil => exact Sublist.refl _
  | cons x l ih =>
    cases hx : keep x with
    | none =>
      rw [filterMap_cons_none hx]
      exact ih.cons _
    | some y =>
      rw [filterMap_cons_some hx, map_cons, map_cons, hkeep x y hx]
      exact ih.cons_cons _

namespace Buffer

variable {s s' : Buffer} {b : TimedBundle} {now draw : ℚ}
variable {x : StoredBundle} {p : ℕ} {a : ℤ}

def ids (s : Buffer) : List (List Char) := s.bundleStoreList.map StoredBundle.id

structure Wf (s : Buffer) : Prop where
  count : s.numberOfBufferedBundles = s.bundleStoreList.length
  room : s.numberOfBufferedBundles ≤ s.maxBundlesInLocalBuffer
  nodup : s.ids.Nodup
  uids : ∀ x ∈ s.bundleStoreList, x.id = x.uid

theorem existId_eq_none (hb : Issued b) :
    s.existId b.src b.uId = none ↔ getBundleIdUid b.toRoutedBundle ∉ s.ids := by
  have huid : b.uId ≠ -1 := by have : 0 ≤ b.uId := hb; omega
  simp only [existId, if_pos huid, find?_eq_none, ids, mem_map, getBundleIdUid]
  simp

theorem getPointerTo_mem {lp : ℕ} (h : s.getPointerTo lp = some x) : x ∈ s.bundleStoreList := by
  rw [getPointerTo] at h
  split_ifs at h
  exact mem_of_getElem? h

/-- What a drop policy can do: nothing, or one bundle makes place for the new one. -/
def Drops (s : Buffer) (b : TimedBundle) (now : ℚ) (s' : Buffer) : Prop :=
  s' = s ∨ ∃ p, s.replace p b now = some s'

theorem drops_self (s : Buffer) (b : TimedBundle) (now : ℚ) : s.Drops b now s := Or.inl rfl

theorem drops_replace (h : s.replace p b now = some s') : s.Drops b now s' :=
  Or.inr ⟨p, h⟩

theorem drops_ite {c : Prop} [Decidable c] (h : (if c then s.replace p b now else some s) = some s') :
    s.Drops b now s' := by
  split_ifs at h
  · exact drops_replace h
  · exact Option.some.inj h ▸ drops_self s b now

theorem drops_tail (h : s.addWithDropTail b now = some s') : s.Drops b now s' := by
  rw [addWithDropTail] at h
  split_ifs at h
  · exact Option.some.inj h ▸ drops_self s b now
  · obtain ⟨lp, -, h⟩ := Option.bind_eq_some_iff.1 h
    split_ifs at h
    · exact Option.some.inj h ▸ drops_self s b now
    · obtain ⟨v, hv, h⟩ := Option.bind_eq_some_iff.1 h
      split at h
      · exact drops_replace h
      · next hnone =>
        have hne := findIdx?_eq_none_iff.1 hnone v (getPointerTo_mem hv)
        simp at hne

theorem drops_front (h : s.addWithDropFromFront b now = some s') : s.Drops b now s' := by
  obtain ⟨x, -, h⟩ := Option.bind_eq_some_iff.1 h
  split_ifs at h
  · exact drops_replace h
  · split at h
    · exact drops_replace h
    · exact drops_replace h

theorem drops_youngest (h : s.addWithDropYoungestMessage b now = some s') : s.Drops b now s' := by
  obtain ⟨x, -, h⟩ := Option.bind_eq_some_iff.1 h
  exact drops_ite h

theorem drops_oldest (h : s.addWithDropOldestMessage b now = some s') : s.Drops b now s' := by
  obtain ⟨x, -, h⟩ := Option.bind_eq_some_iff.1 h
  exact drops_ite h

theorem drops_binOldest (h : s.addWithBinDropOldest b now draw = some s') : s.Drops b now s' := by
  rw [addWithBinDropOldest] at h
  by_cases hmine : s.isMyMessage b = true
  · rw [if_pos hmine] at h
    exact drops_replace h
  · rw [if_neg hmine] at h
    obtain ⟨x, -, h⟩ := Option.bind_eq_some_iff.1 h
    split_ifs at h
    all_goals first
      | exact drops_replace h
      | exact Option.some.inj h ▸ drops_self s b now

variable {V : Type*} {U : Utilities V}

theorem drops_maximizeApproximation
    (h : s.addAndMaximizeTotalDeliveryRateApproximation U b now draw = some s') :
    s.Drops b now s' := by
  rw [addAndMaximizeTotalDeliveryRateApproximation] at h
  split_ifs at h
  all_goals first
    | exact drops_replace h
    | exact Option.some.inj h ▸ drops_self s b now

@[simp] theorem countHop_toRoutedBundle (b : TimedBundle) (s : Buffer) :
    (s.countHop b).toRoutedBundle = b.toRoutedBundle := by
  rw [countHop]
  split_ifs <;> rfl

theorem addBundle_cases (h : s.addBundle U b now draw = some (s', a)) :
    s' = s ∨
    (s.existId b.src b.uId = none ∧ s.freePlace = true ∧
      s' = { s.pushBack (s.countHop b) now with
        numberOfBufferedBundles := s.numberOfBufferedBundles + 1 }) ∨
    (s.existId b.src b.uId = none ∧ s.freePlace = false ∧
      ∃ p, s.replace p b now = some s') := by
  rw [addBundle] at h
  split_ifs at h with hfree hfull
  · obtain ⟨rfl, -⟩ := Prod.mk.inj (Option.some.inj h)
    exact Or.inr (Or.inl ⟨Option.isNone_iff_eq_none.1 hfree.1, hfree.2, rfl⟩)
  · have hdrops : s.Drops b now s' := by
      split at h
      case h_10 => exact (Prod.mk.inj (Option.some.inj h)).1 ▸ drops_self s b now
      all_goals
        obtain ⟨s₁, h₁, heq⟩ := Option.map_eq_some_iff.1 h
        obtain ⟨rfl, -⟩ := Prod.mk.inj heq
      · exact drops_tail h₁
      · exact drops_front h₁
      · exact drops_youngest h₁
      · exact drops_oldest h₁
      · exact drops_ite h₁
      · exact drops_ite h₁
      · exact drops_maximizeApproximation h₁
      · exact drops_ite h₁
      · exact drops_binOldest h₁
    exact hdrops.imp_right fun hp => Or.inr ⟨Option.isNone_iff_eq_none.1 hfull.2, hfull.1, hp⟩
  · exact Or.inl (Prod.mk.inj (Option.some.inj h)).1.symm

theorem replace_eq (h : s.replace p b now = some s') : p < s.bundleStoreList.length ∧
    s' = { s with
      bundleStoreList := s.bundleStoreList.eraseIdx p ++ [s.newStore b now] } := by
  rw [replace] at h
  split_ifs at h with hp
  exact ⟨hp, (Option.some.inj h).symm⟩

theorem Wf.length_eq_of_full (h : s.Wf) (hfull : s.freePlace = false) :
    (s.bundleStoreList.length : ℤ) = s.maxBundlesInLocalBuffer := by
  have hle : ¬ s.numberOfBufferedBundles < s.maxBundlesInLocalBuffer := by
    simpa [freePlace] using hfull
  have := h.room
  have := h.count
  omega

theorem Wf.snoc (h : s.Wf) {l : List StoredBundle} (hl : l.Sublist s.bundleStoreList)
    (hx : x.id = x.uid) (hnew : x.id ∉ s.ids) :
    ((l ++ [x]).map StoredBundle.id).Nodup ∧ ∀ y ∈ l ++ [x], y.id = y.uid := by
  refine ⟨?_, fun y hy => ?_⟩
  · rw [map_append, map_singleton]
    refine (h.nodup.sublist (hl.map _)).append (nodup_singleton _) ?_
    intro id hid hid'
    obtain rfl := mem_singleton.1 hid'
    exact hnew ((hl.map _).subset hid)
  · rcases mem_append.1 hy with hy | hy
    · exact h.uids y (hl.subset hy)
    · obtain rfl := mem_singleton.1 hy
      exact hx

theorem Wf.addBundle (h : s.Wf) (hb : Issued b) (hadd : s.addBundle U b now draw = some (s', a)) :
    s'.Wf := by
  rcases addBundle_cases hadd with rfl | ⟨hnew, hfree, rfl⟩ | ⟨hnew, -, p, hp⟩
  · exact h
  · rw [existId_eq_none hb] at hnew
    have hfree : s.numberOfBufferedBundles < s.maxBundlesInLocalBuffer := by
      simpa [freePlace] using hfree
    have hsnoc := h.snoc (Sublist.refl _) (x := s.newStore (s.countHop b) now) rfl
      (by simpa [newStore] using hnew)
    refine ⟨?_, ?_, hsnoc.1, hsnoc.2⟩
    · simp [pushBack, h.count]
    · simp only [pushBack]
      omega
  · rw [existId_eq_none hb] at hnew
    obtain ⟨hlt, rfl⟩ := replace_eq hp
    have hsnoc := h.snoc (eraseIdx_sublist _ p) (x := s.newStore b now) rfl hnew
    refine ⟨?_, h.room, hsnoc.1, hsnoc.2⟩
    simp only [length_append, length_eraseIdx_of_lt hlt, length_singleton, h.count]
    omega

theorem Wf.eraseLoop (h : s.Wf) {keep : StoredBundle → Option StoredBundle}
    (hkeep : ∀ x y, keep x = some y → y.id = x.id ∧ y.uid = x.uid) :
    ({ s with
      bundleStoreList := (eraseLoop keep s.bundleStoreList s.numberOfBufferedBundles).1
      numberOfBufferedBundles :=
        (eraseLoop keep s.bundleStoreList s.numberOfBufferedBundles).2 } : Buffer).Wf := by
  rw [eraseLoop_eq]
  have hle := length_filterMap_le keep s.bundleStoreList
  have hids : ((s.bundleStoreList.filterMap keep).map StoredBundle.id).Sublist s.ids :=
    ids_filterMap_sublist (fun x y hxy => (hkeep x y hxy).1) s.bundleStoreList
  refine ⟨?_, ?_, h.nodup.sublist hids, fun y hy => ?_⟩
  · dsimp only
    rw [h.count]
    omega
  · have := h.room
    dsimp only
    omega
  · obtain ⟨x, hx, hxy⟩ := mem_filterMap.1 hy
    obtain ⟨hid, huid⟩ := hkeep x y hxy
    rw [hid, huid, h.uids x hx]

theorem Wf.makeClean (h : s.Wf) (now : ℚ) : (s.makeClean now).Wf := by
  rw [Buffer.makeClean]
  split_ifs
  · refine h.eraseLoop fun x y hxy => ?_
    obtain rfl := Option.some.inj (Option.ite_none_left_eq_some.1 hxy).2
    exact ⟨rfl, rfl⟩
  · exact h

theorem Wf.deleteDelivredBundles (h : s.Wf) (dbMap : List (List Char)) :
    (s.deleteDelivredBundles dbMap).Wf := by
  rw [Buffer.deleteDelivredBundles]
  split_ifs
  · refine h.eraseLoop fun x y hxy => ?_
    obtain rfl := Option.some.inj (Option.ite_none_left_eq_some.1 hxy).2
    exact ⟨rfl, rfl⟩
  · exact h

/-- The bundles that are added were issued by an agent. -/
def Admits (_ : Buffer) : BufferOp V → Prop
  | .addBundle _ b _ _ => Issued b
  | _ => True

theorem Wf.run (h : s.Wf) {ops : List (BufferOp V)} {as : List ℤ}
    (hops : machine.RunsWith Admits s ops) (hrun : machine.run s ops = some (s', as)) :
    s'.Wf := by
  refine Machine.RunsWith.keeps (fun s o s' a hs hok hstep => ?_) hops hrun h
  cases o with
  | addBundle U b now draw => exact hs.addBundle hok hstep
  | makeClean now =>
    obtain ⟨rfl, -⟩ := Prod.mk.inj (Option.some.inj hstep)
    exact hs.makeClean now
  | deleteDelivredBundles dbMap =>
    obtain ⟨rfl, -⟩ := Prod.mk.inj (Option.some.inj hstep)
    exact hs.deleteDelivredBundles dbMap

/-- The list is left as it is, or gets the new bundle at its end, in the place of exactly one
other when it is full. -/
def AddEffect (s : Buffer) (b : TimedBundle) (s' : Buffer) : Prop :=
  s'.bundleStoreList = s.bundleStoreList ∨ ∃ x, x.b.toRoutedBundle = b.toRoutedBundle ∧
    (s'.bundleStoreList = s.bundleStoreList ++ [x] ∨
      (s.bundleStoreList.length : ℤ) = s.maxBundlesInLocalBuffer ∧
      ∃ p < s.bundleStoreList.length, s'.bundleStoreList = s.bundleStoreList.eraseIdx p ++ [x])

theorem Wf.addEffect (h : s.Wf) (hadd : s.addBundle U b now draw = some (s', a)) :
    s.AddEffect b s' := by
  rcases addBundle_cases hadd with rfl | ⟨-, -, rfl⟩ | ⟨-, hfull, p, hp⟩
  · exact Or.inl rfl
  · exact Or.inr ⟨s.newStore (s.countHop b) now, by simp [newStore], Or.inl rfl⟩
  · obtain ⟨hlt, rfl⟩ := replace_eq hp
    exact Or.inr ⟨s.newStore b now, rfl, Or.inr ⟨h.length_eq_of_full hfull, p, hlt, rfl⟩⟩

structure Empty (s : Buffer) : Prop where
  list : s.bundleStoreList = []
  count : s.numberOfBufferedBundles = 0
  capacity : 0 < s.maxBundlesInLocalBuffer

theorem Empty.wf (h : s.Empty) : s.Wf := by
  have := h.capacity
  refine ⟨?_, ?_, ?_, ?_⟩
  · rw [h.count, h.list]
    rfl
  · rw [h.count]
    omega
  · simp [ids, h.list]
  · simp [h.list]

theorem buffer_invariant (h : s.Empty) {ops : List (BufferOp V)} {as : List ℤ}
    (hops : machine.RunsWith Admits s ops) (hrun : machine.run s ops = some (s', as)) :
    s'.Wf ∧ ∀ (U : Utilities V) b now draw s'' a, s'.addBundle U b now draw = some (s'', a) → s'.AddEffect b s'' := by
  have hwf := h.wf.run hops hrun
  exact ⟨hwf, fun U b now draw s'' a hadd => hwf.addEffect hadd⟩

/-- An agent with room for some bundles and a drop policy. -/
def withRoom (maxBundles policie : ℤ) : Buffer :=
  ⟨['a'], maxBundles, policie, 1, 100, 0, 1, 0, []⟩

def bundleFrom (src : List Char) (uId : ℤ) (elapsedTime : ℚ) : TimedBundle :=
  ⟨⟨src, ['R'], ['c'], uId⟩, elapsedTime, 3600, 0⟩

def sameUtility : Utilities Unit :=
  ⟨fun _ _ => false, fun _ _ => true, fun _ _ => true, (), fun _ _ _ => (), fun _ _ _ => ()⟩

def twoBundles : List (BufferOp Unit) :=
  [.addBundle sameUtility (bundleFrom ['b'] 1 20) 0 0,
    .addBundle sameUtility (bundleFrom ['b'] 2 10) 1 0, .makeClean 5]

theorem buffer_invariant_full : ∃ s' as, machine.run (withRoom 1 4) twoBundles = some (s', as) ∧
    s'.Wf ∧ ∀ (U : Utilities Unit) b now draw s'' a, s'.addBundle U b now draw = some (s'', a) →
      s'.AddEffect b s'' := by
  have hops : machine.RunsWith Admits (withRoom 1 4) twoBundles :=
    ⟨(by decide : (0 : ℤ) ≤ 1), fun _ _ _ =>
      ⟨(by decide : (0 : ℤ) ≤ 2), fun _ _ _ => ⟨trivial, fun _ _ _ => trivial⟩⟩⟩
  have hruns : (machine.run (withRoom 1 4) twoBundles).isSome = true := by decide +kernel
  obtain ⟨r, hr⟩ := Option.isSome_iff_exists.1 hruns
  exact ⟨r.1, r.2, hr, buffer_invariant ⟨rfl, rfl, by decide⟩ hops hr⟩

end Buffer

end EpidemicRouting

end Ns2
