import Ns2.Dtn.BufferInvariant

/-! Source priority: when a full buffer gives up a bundle that the agent itself originated. -/

namespace Ns2

open Option List

namespace EpidemicRouting

/-- The selection stays at its start when no bundle beats it; otherwise it ends at a bundle
that is not exempt. -/
theorem selectMessage_cases {V : Type*} (beats : V → V → Bool) (exempt : StoredBundle → Bool)
    (value : StoredBundle → V) (l : List StoredBundle) (i : ℕ) (r : ℕ × V) :
    (selectMessage beats exempt value l i r = r ∧
      ∀ y ∈ l, exempt y = false → beats (value y) r.2 = false) ∨
    ((∃ y ∈ l, exempt y = false ∧ beats (value y) r.2 = true) ∧
      ∃ j y, l[j]? = some y ∧ exempt y = false ∧
        (selectMessage beats exempt value l i r).1 = i + j) := by
  induction l generalizing i r with
  | nil => exact Or.inl ⟨rfl, fun y hy => by cases hy⟩
  | cons x l ih =>
    rw [selectMessage]
    by_cases hx : beats (value x) r.2 = true ∧ exempt x = false
    · rw [if_pos hx]
      refine Or.inr ⟨⟨x, mem_cons_self, hx.2, hx.1⟩, ?_⟩
      rcases ih (i + 1) (i, value x) with ⟨heq, -⟩ | ⟨-, j, y, hy, hex, heq⟩
      · exact ⟨0, x, rfl, hx.2, by rw [heq, Nat.add_zero]⟩
      · exact ⟨j + 1, y, hy, hex, by rw [heq]; omega⟩
    · rw [if_neg hx]
      rcases ih (i + 1) r with ⟨heq, hnone⟩ | ⟨⟨y, hy, hex, hbeats⟩, j, z, hz, hez, heq⟩
      · refine Or.inl ⟨heq, fun y hy hex => ?_⟩
        rcases mem_cons.1 hy with rfl | hy
        · simpa [hex] using hx
        · exact hnone y hy hex
      · exact Or.inr ⟨⟨y, mem_cons_of_mem x hy, hex, hbeats⟩, j + 1, z, hz, hez,
          by rw [heq]; omega⟩

namespace Buffer

variable {s s' : Buffer} {b : TimedBundle} {now draw : ℚ} {V : Type*} {U : Utilities V}
variable {x : StoredBundle} {p : ℕ} {W : Type*} {beats : W → W → Bool} {value : StoredBundle → W}
  {limit : W} {r : ℕ × W}

def AllMine (s : Buffer) : Prop := ∀ y ∈ s.bundleStoreList, s.isMine y = true

/-- From `s` to `s'` an own bundle only went for an own one and out of a buffer without
bundles of others. -/
def Protects (s : Buffer) (b : TimedBundle) (s' : Buffer) : Prop :=
  ∀ x ∈ s.bundleStoreList, x ∉ s'.bundleStoreList → s.isMine x = true →
    s.isMyMessage b = true ∧ s.AllMine

/-- A full buffer without the bundle in it. -/
structure Full (s : Buffer) (b : TimedBundle) : Prop where
  wf : s.Wf
  nonempty : s.bundleStoreList ≠ []
  new : getBundleIdUid b.toRoutedBundle ∉ s.ids

theorem Wf.eq_of_id (h : s.Wf) {y : StoredBundle} (hx : x ∈ s.bundleStoreList)
    (hy : y ∈ s.bundleStoreList) (hid : x.id = y.id) : x = y :=
  inj_on_of_nodup_map h.nodup hx hy hid

theorem Full.replace_removes (h : s.Full b) (hp : s.replace p b now = some s')
    (hx : x ∈ s.bundleStoreList) : x ∉ s'.bundleStoreList ↔ s.bundleStoreList[p]? = some x := by
  obtain ⟨hlt, rfl⟩ := replace_eq hp
  have hne : x ≠ s.newStore b now := by
    rintro rfl
    exact h.new (mem_map.2 ⟨_, hx, rfl⟩)
  have hnodup : s.bundleStoreList.Nodup := Nodup.of_map _ h.wf.nodup
  rw [mem_append, mem_singleton, not_or, and_iff_left hne,
    mem_eraseIdx_iff_getElem?]
  constructor
  · intro hgone
    obtain ⟨i, hi⟩ := mem_iff_getElem?.1 hx
    by_contra hkept
    exact hgone ⟨i, fun heq => hkept (heq ▸ hi), hi⟩
  · rintro hat ⟨i, hi, hx⟩
    exact hi ((getElem?_inj hlt hnodup).1 (hat.trans hx.symm)).symm

theorem Full.protects_self (_ : s.Full b) : s.Protects b s :=
  fun _ hx hgone => absurd hx hgone

theorem Full.protects_replace (h : s.Full b) (hp : s.replace p b now = some s')
    (hx : s.bundleStoreList[p]? = some x) :
    s.Protects b s' ↔ (s.isMine x = true → s.isMyMessage b = true ∧ s.AllMine) := by
  constructor
  · intro hprot hmine
    have hmem := mem_of_getElem? hx
    exact hprot x hmem ((h.replace_removes hp hmem).2 hx) hmine
  · intro hprot y hy hgone hmine
    obtain rfl := some.inj (hx.symm.trans ((h.replace_removes hp hy).1 hgone))
    exact hprot hmine

/-- A victim makes place when `accepts` says so or the new bundle is the agent's own. -/
def offer (accepts : StoredBundle → Prop) [DecidablePred accepts] (p : ℕ) (b : TimedBundle)
    (now : ℚ) (s : Buffer) : Option Buffer :=
  (s.bundleStoreList[p]?).bind fun x =>
    if accepts x ∨ s.isMyMessage b = true then s.replace p b now else some s

theorem Full.protects_offer (h : s.Full b) {accepts : StoredBundle → Prop} [DecidablePred accepts]
    (hx : s.bundleStoreList[p]? = some x) :
    (∀ s', s.offer accepts p b now = some s' → s.Protects b s') ↔
      (accepts x ∨ s.isMyMessage b = true → s.isMine x = true →
        s.isMyMessage b = true ∧ s.AllMine) := by
  have hlt : p < s.bundleStoreList.length := (List.getElem?_eq_some_iff.1 hx).1
  have hoffer : s.offer accepts p b now =
      if accepts x ∨ s.isMyMessage b = true then s.replace p b now else some s := by
    rw [offer, hx, bind_some]
  rw [hoffer]
  by_cases hacc : accepts x ∨ s.isMyMessage b = true
  · simp only [hacc, if_true, true_imp_iff]
    have hp : s.replace p b now = some _ := if_pos hlt
    exact ⟨fun hprot => (h.protects_replace hp hx).1 (hprot _ hp),
      fun hprot s' hs' => (h.protects_replace hs' hx).2 hprot⟩
  · simp only [hacc, if_false, false_imp_iff, iff_true]
    intro s' hs'
    exact some.inj hs' ▸ h.protects_self

/-- What puts an own bundle at risk: no bundle of another agent passes the test of the selector,
the first bundle is an own one, and it goes for an own bundle although there are others, or
for an accepted bundle of another agent. -/
def Exposed (picks : StoredBundle → Bool) (accepts : StoredBundle → Prop) (b : TimedBundle)
    (s : Buffer) : Prop :=
  (∀ y ∈ s.bundleStoreList, s.isMine y = false → picks y = false) ∧
  ∃ x, s.bundleStoreList.head? = some x ∧ s.isMine x = true ∧
    if s.isMyMessage b then ¬ s.AllMine else accepts x

/-- A victim found from the first bundle by a selector that exempts the agent's own. -/
theorem Full.protects_select (h : s.Full b) (accepts : W → StoredBundle → Prop)
    [∀ w, DecidablePred (accepts w)]
    (hr : selectMessage beats s.isMine value s.bundleStoreList 0 (0, limit) = r) :
    (∀ s', s.offer (accepts r.2) r.1 b now = some s' → s.Protects b s') ↔
      ¬ s.Exposed (fun y => beats (value y) limit) (accepts limit) b := by
  rcases selectMessage_cases beats s.isMine value s.bundleStoreList 0 (0, limit) with
    ⟨heq, hnone⟩ | ⟨⟨y, hy, hex, hbeats⟩, j, z, hz, hez, heq⟩
  · obtain rfl := hr.symm.trans heq
    obtain ⟨x, l, hl⟩ := exists_cons_of_ne_nil h.nonempty
    rw [h.protects_offer (x := x) (by rw [hl]; rfl)]
    have hhead : s.bundleStoreList.head? = some x := by rw [hl]; rfl
    have hexposed : s.Exposed (fun y => beats (value y) limit) (accepts limit) b ↔
        s.isMine x = true ∧ if s.isMyMessage b then ¬ s.AllMine else accepts limit x := by
      simp only [Exposed, hhead, some.injEq, exists_eq_left', and_iff_right hnone]
    rw [hexposed]
    by_cases hb : s.isMyMessage b = true
    · rw [if_pos hb]
      tauto
    · rw [if_neg hb]
      tauto
  · rw [hr, Nat.zero_add] at heq
    rw [heq, h.protects_offer hz]
    simp only [hez, Bool.false_eq_true, false_imp_iff, implies_true, true_iff]
    intro hexposed
    simp [hexposed.1 y hy hex] at hbeats

theorem Full.lt_of_select (h : s.Full b)
    (hr : selectMessage beats s.isMine value s.bundleStoreList 0 (0, limit) = r) :
    ∃ x, s.bundleStoreList[r.1]? = some x := by
  rcases selectMessage_cases beats s.isMine value s.bundleStoreList 0 (0, limit) with
    ⟨heq, -⟩ | ⟨-, j, z, hz, -, heq⟩
  · obtain ⟨x, l, hl⟩ := exists_cons_of_ne_nil h.nonempty
    exact ⟨x, by rw [← hr, heq, hl]; rfl⟩
  · exact ⟨z, by rw [← hr, heq, Nat.zero_add, hz]⟩

theorem Full.ite_eq_offer (h : s.Full b) (accepts : W → Prop) [DecidablePred accepts]
    (hr : selectMessage beats s.isMine value s.bundleStoreList 0 (0, limit) = r) :
    (if accepts r.2 ∨ s.isMyMessage b = true then s.replace r.1 b now else some s) =
      s.offer (fun _ => accepts r.2) r.1 b now := by
  obtain ⟨x, hx⟩ := h.lt_of_select hr
  rw [offer, hx, bind_some]

theorem Full.maximizeApproximation_eq (h : s.Full b) :
    s.addAndMaximizeTotalDeliveryRateApproximation U b now draw =
      s.offer (fun _ => U.lt (s.getMessageWith U 7).2 (U.new 7 s b) = true ∨
        U.eq (U.new 7 s b) (s.getMessageWith U 7).2 = true ∧ draw > 1 / 2)
        (s.getMessageWith U 7).1 b now := by
  refine Eq.trans ?_ (h.ite_eq_offer (r := s.getMessageWith U 7)
    (fun w => U.lt w (U.new 7 s b) = true ∨ U.eq (U.new 7 s b) w = true ∧ draw > 1 / 2) rfl)
  rw [addAndMaximizeTotalDeliveryRateApproximation,
    getMessageWithSmallestMetricValueApproximation]
  split_ifs <;> first | rfl | tauto

/-- When the bin policy gives up the victim for a bundle of another agent. -/
def BinAccepts (s : Buffer) (b : TimedBundle) (draw : ℚ) (x : StoredBundle) : Prop :=
  (x.getElapsedTime ≥ b.elapsedTime ∧
    (x.getElapsedTime - b.elapsedTime ≥ s.dropOldestBin ∨ draw > 1 / 2)) ∨
  (¬ x.getElapsedTime ≥ b.elapsedTime ∧
    ¬ b.elapsedTime - x.getElapsedTime ≥ s.dropOldestBin ∧ draw > 1 / 2)

instance (s : Buffer) (b : TimedBundle) (draw : ℚ) : DecidablePred (s.BinAccepts b draw) :=
  fun _ => inferInstanceAs (Decidable (_ ∨ _))

theorem Full.binOldest_eq (h : s.Full b) : s.addWithBinDropOldest b now draw =
    s.offer (s.BinAccepts b draw) s.getOldestMessage b now := by
  obtain ⟨r, hr⟩ : ∃ r, selectMessage (fun t max : ℚ => t > max) s.isMine
      StoredBundle.getElapsedTime s.bundleStoreList 0 (0, 0) = r := ⟨_, rfl⟩
  obtain ⟨x, hx⟩ := h.lt_of_select hr
  have hx : s.bundleStoreList[s.getOldestMessage]? = some x := by rw [getOldestMessage, hr, hx]
  rw [addWithBinDropOldest, offer, hx, bind_some, bind_some]
  by_cases hb : s.isMyMessage b = true
  · rw [if_pos hb, if_pos (Or.inr hb)]
  · simp only [hb, if_false, or_false, BinAccepts, Bool.false_eq_true]
    split_ifs <;> first | rfl | tauto

theorem lastForeign_spec {n lp : ℕ} (h : s.lastForeign n = some lp) (hlp : lp ≠ 0) :
    ∃ x, s.getPointerTo lp = some x ∧ s.isMine x = false := by
  induction n with
  | zero =>
    obtain ⟨x, -, heq⟩ := map_eq_some_iff.1 h
    omega
  | succ n ih =>
    obtain ⟨x, hx, h⟩ := bind_eq_some_iff.1 h
    by_cases hmine : s.isMine x = true
    · rw [if_pos hmine] at h
      exact ih h
    · rw [if_neg hmine] at h
      obtain rfl := some.inj h
      exact ⟨x, hx, by simpa using hmine⟩

theorem Full.protects_tail (h : s.Full b) (hadd : s.addWithDropTail b now = some s') :
    s.Protects b s' := by
  rw [addWithDropTail] at hadd
  split_ifs at hadd
  · exact some.inj hadd ▸ h.protects_self
  · obtain ⟨lp, hlp, hadd⟩ := bind_eq_some_iff.1 hadd
    split_ifs at hadd with hzero
    · exact some.inj hadd ▸ h.protects_self
    · obtain ⟨v, hv, hadd⟩ := bind_eq_some_iff.1 hadd
      obtain ⟨x, hx, hforeign⟩ := lastForeign_spec hlp hzero
      obtain rfl := some.inj (hx.symm.trans hv)
      split at hadd
      · next p hp =>
        obtain ⟨hlt, hid, -⟩ := findIdx?_eq_some_iff_getElem.1 hp
        have hat : s.bundleStoreList[p]? = some x := by
          rw [getElem?_eq_getElem hlt]
          exact congrArg some (h.wf.eq_of_id (getElem_mem hlt) (getPointerTo_mem hx)
            (of_decide_eq_true hid).symm)
        exact (h.protects_replace hadd hat).2 fun hmine => by simp [hforeign] at hmine
      · next hnone =>
        have hne := findIdx?_eq_none_iff.1 hnone x (getPointerTo_mem hx)
        simp at hne

theorem Full.protects_front (h : s.Full b) :
    (∀ s', s.addWithDropFromFront b now = some s' → s.Protects b s') ↔
      ¬ (s.isMyMessage b = false ∧ s.AllMine) := by
  obtain ⟨x, l, hl⟩ := exists_cons_of_ne_nil h.nonempty
  have hx : s.bundleStoreList[0]? = some x := by rw [hl]; rfl
  have hreplace : ∀ p, p < s.bundleStoreList.length → ∃ s', s.replace p b now = some s' :=
    fun p hp => ⟨_, if_pos hp⟩
  rw [addWithDropFromFront, hx, bind_some]
  by_cases hmine : s.isMine x = true
  · simp only [hmine, Bool.not_true, Bool.false_eq_true, if_false]
    split
    · next p hp =>
      obtain ⟨hlt, hforeign, -⟩ := findIdx?_eq_some_iff_getElem.1 hp
      have hforeign : s.isMine s.bundleStoreList[p] = false := by simpa using hforeign
      have hnot : ¬ s.AllMine := fun hall => by
        simpa [hforeign] using hall _ (getElem_mem hlt)
      simp only [hnot, and_false, not_false_eq_true, iff_true]
      intro s' hs'
      refine (h.protects_replace hs' (getElem?_eq_getElem hlt)).2 fun hm => ?_
      simp [hforeign] at hm
    · next hnone =>
      have hall : s.AllMine := fun y hy => by
        simpa using findIdx?_eq_none_iff.1 hnone y hy
      obtain ⟨s', hs'⟩ := hreplace 0 (by rw [hl]; simp)
      have hiff := h.protects_replace hs' hx
      constructor
      · intro hprot hrisk
        have := (hiff.1 (hprot s' hs') hmine).1
        simp [hrisk.1] at this
      · intro hsafe s'' hs''
        refine (h.protects_replace hs'' hx).2 fun _ => ⟨?_, hall⟩
        simpa [hall] using hsafe
  · have hmine : s.isMine x = false := by simpa using hmine
    have hnot : ¬ s.AllMine := fun hall => by
      simpa [hmine] using hall x (by rw [hl]; exact mem_cons_self)
    simp only [hmine, Bool.not_false, if_true, hnot, and_false, not_false_eq_true, iff_true]
    intro s' hs'
    exact (h.protects_replace hs' hx).2 fun hm => by simp [hmine] at hm

/-- When a full buffer gives up an own bundle against the priority of the source. -/
def AtRisk (U : Utilities V) (s : Buffer) (b : TimedBundle) (draw : ℚ) : Prop :=
  match s.dropPolicie with
  | 2 => s.isMyMessage b = false ∧ s.AllMine
  | 3 => s.Exposed (fun y => y.getElapsedTime < 99999) (fun x => b.elapsedTime > x.getElapsedTime) b
  | 4 => s.Exposed (fun y => y.getElapsedTime > 0) (fun x => b.elapsedTime < x.getElapsedTime) b
  | 5 => s.Exposed (fun y => U.lt (U.stored 5 s y) U.limit) (fun _ => U.le U.limit (U.new 5 s b)) b
  | 6 => s.Exposed (fun y => U.lt (U.stored 6 s y) U.limit) (fun _ => U.le U.limit (U.new 6 s b)) b
  | 7 => s.Exposed (fun y => U.lt (U.stored 7 s y) U.limit) (fun _ =>
      U.lt U.limit (U.new 7 s b) = true ∨ U.eq (U.new 7 s b) U.limit = true ∧ draw > 1 / 2) b
  | 8 => s.Exposed (fun y => U.lt (U.stored 8 s y) U.limit) (fun _ => U.le U.limit (U.new 8 s b)) b
  | 9 => s.Exposed (fun y => y.getElapsedTime > 0) (s.BinAccepts b draw) b
  | _ => False

def SourcePriority (U : Utilities V) (s : Buffer) (b : TimedBundle) (now draw : ℚ) : Prop :=
  ∀ s' a, s.addBundle U b now draw = some (s', a) → s.Protects b s'

theorem sourcePriority_of_map {f : Option Buffer}
    (h : s.addBundle U b now draw = f.map fun s' => (s', 1)) :
    SourcePriority U s b now draw ↔ ∀ s', f = some s' → s.Protects b s' := by
  rw [SourcePriority, h]
  constructor
  · intro hprot s' hs'
    exact hprot s' 1 (by rw [hs', map_some])
  · intro hprot s' a hs'
    obtain ⟨s₁, h₁, heq⟩ := map_eq_some_iff.1 hs'
    exact (Prod.mk.inj heq).1 ▸ hprot s₁ h₁

theorem Full.protects_byMetric (h : s.Full b) (policie : ℤ) :
    (∀ s', s.addByMetric (U.le (s.getMessageWith U policie).2 (U.new policie s b))
      (s.getMessageWith U policie).1 b now = some s' → s.Protects b s') ↔
      ¬ s.Exposed (fun y => U.lt (U.stored policie s y) U.limit)
        (fun _ => U.le U.limit (U.new policie s b) = true) b := by
  rw [addByMetric, h.ite_eq_offer (r := s.getMessageWith U policie)
    (fun w => U.le w (U.new policie s b) = true) rfl]
  exact h.protects_select (fun w _ => U.le w (U.new policie s b) = true) rfl

theorem Full.protects_iff (h : s.Full b) (hnew : s.existId b.src b.uId = none)
    (hfree : s.freePlace = false) (hpolicie : 1 ≤ s.dropPolicie ∧ s.dropPolicie ≤ 9) :
    SourcePriority U s b now draw ↔ ¬ s.AtRisk U b draw := by
  have hcases : s.dropPolicie = 1 ∨ s.dropPolicie = 2 ∨ s.dropPolicie = 3 ∨ s.dropPolicie = 4 ∨
      s.dropPolicie = 5 ∨ s.dropPolicie = 6 ∨ s.dropPolicie = 7 ∨ s.dropPolicie = 8 ∨
      s.dropPolicie = 9 := by omega
  rcases hcases with hp | hp | hp | hp | hp | hp | hp | hp | hp <;> simp only [AtRisk, hp]
  · have hadd : s.addBundle U b now draw = (s.addWithDropTail b now).map fun s' => (s', 1) := by
      simp [addBundle, hnew, hfree, hp]
    rw [sourcePriority_of_map hadd, not_false_eq_true, iff_true]
    exact fun s' => h.protects_tail
  · have hadd : s.addBundle U b now draw = (s.addWithDropFromFront b now).map fun s' => (s', 1) := by
      simp [addBundle, hnew, hfree, hp]
    rw [sourcePriority_of_map hadd]
    exact h.protects_front
  · have hadd : s.addBundle U b now draw =
        (s.addWithDropYoungestMessage b now).map fun s' => (s', 1) := by
      simp [addBundle, hnew, hfree, hp]
    rw [sourcePriority_of_map hadd]
    exact h.protects_select (fun _ x => b.elapsedTime > x.getElapsedTime) rfl
  · have hadd : s.addBundle U b now draw =
        (s.addWithDropOldestMessage b now).map fun s' => (s', 1) := by
      simp [addBundle, hnew, hfree, hp]
    rw [sourcePriority_of_map hadd]
    exact h.protects_select (fun _ x => b.elapsedTime < x.getElapsedTime) rfl
  · have hadd : s.addBundle U b now draw =
        (s.addAndMaximizeTotalDeliveryRateReference U b now).map fun s' => (s', 1) := by
      simp [addBundle, hnew, hfree, hp]
    rw [sourcePriority_of_map hadd]
    exact h.protects_byMetric 5
  · have hadd : s.addBundle U b now draw =
        (s.addAndMinimizeTotalDelayReference U b now).map fun s' => (s', 1) := by
      simp [addBundle, hnew, hfree, hp]
    rw [sourcePriority_of_map hadd]
    exact h.protects_byMetric 6
  · have hadd : s.addBundle U b now draw =
        (s.addAndMaximizeTotalDeliveryRateApproximation U b now draw).map fun s' => (s', 1) := by
      simp [addBundle, hnew, hfree, hp]
    rw [sourcePriority_of_map hadd, h.maximizeApproximation_eq]
    exact h.protects_select (fun w _ => U.lt w (U.new 7 s b) = true ∨
      U.eq (U.new 7 s b) w = true ∧ draw > 1 / 2) rfl
  · have hadd : s.addBundle U b now draw =
        (s.addAndMinimizeTotalDelayApproximation U b now).map fun s' => (s', 1) := by
      simp [addBundle, hnew, hfree, hp]
    rw [sourcePriority_of_map hadd]
    exact h.protects_byMetric 8
  · have hadd : s.addBundle U b now draw =
        (s.addWithBinDropOldest b now draw).map fun s' => (s', 1) := by
      simp [addBundle, hnew, hfree, hp]
    rw [sourcePriority_of_map hadd, h.binOldest_eq]
    exact h.protects_select (fun _ => s.BinAccepts b draw) rfl

theorem sourcePriority_iff (hwf : s.Wf) (hmax : 0 < s.maxBundlesInLocalBuffer)
    (hfull : s.freePlace = false) (hpolicie : 1 ≤ s.dropPolicie ∧ s.dropPolicie ≤ 9)
    (hb : Issued b) :
    SourcePriority U s b now draw ↔
      ¬ (getBundleIdUid b.toRoutedBundle ∉ s.ids ∧ s.AtRisk U b draw) := by
  by_cases hnew : getBundleIdUid b.toRoutedBundle ∈ s.ids
  · have hexists : s.existId b.src b.uId ≠ none := fun h => (existId_eq_none hb).1 h hnew
    have hadd : s.addBundle U b now draw = some (s, 0) := by
      simp [addBundle, hexists]
    refine iff_of_true (fun s' a hs' => ?_) fun h => h.1 hnew
    obtain ⟨rfl, -⟩ := Prod.mk.inj (some.inj (hadd.symm.trans hs'))
    exact fun _ hx hgone => absurd hx hgone
  · have hnonempty : s.bundleStoreList ≠ [] := by
      intro hnil
      have hlen := hwf.length_eq_of_full hfull
      rw [hnil, length_nil] at hlen
      omega
    rw [Full.protects_iff ⟨hwf, hnonempty, hnew⟩ ((existId_eq_none hb).2 hnew) hfull
      hpolicie, and_iff_right hnew]

/-- A full buffer with one bundle. -/
def holding (policie : ℤ) (b : TimedBundle) : Buffer :=
  { withRoom 1 policie with
    numberOfBufferedBundles := 1
    bundleStoreList := [(withRoom 1 policie).newStore b 0] }

theorem wf_holding (policie : ℤ) (b : TimedBundle) : (holding policie b).Wf := by
  refine ⟨rfl, le_refl (1 : ℤ), nodup_singleton _, fun x hx => ?_⟩
  obtain rfl := mem_singleton.1 hx
  rfl

/-- A full buffer with an own bundle and one of another agent. -/
def holdingBoth : Buffer :=
  { withRoom 2 4 with
    numberOfBufferedBundles := 2
    bundleStoreList := [(withRoom 2 4).newStore (bundleFrom ['a'] 1 30) 0,
      (withRoom 2 4).newStore (bundleFrom ['b'] 1 20) 0] }

theorem wf_holdingBoth : holdingBoth.Wf := by
  refine ⟨rfl, le_refl (2 : ℤ), by decide, fun x hx => ?_⟩
  rcases mem_pair.1 hx with rfl | rfl <;> rfl

/-- The own bundle is the oldest one, and the other one goes. -/
theorem sourcePriority_iff_oldest :
    SourcePriority sameUtility holdingBoth (bundleFrom ['c'] 1 10) 0 0 ∧
      (holdingBoth.addBundle sameUtility (bundleFrom ['c'] 1 10) 0 0).map
        (fun r => r.1.bundleStoreList.map fun x => x.b.src) = some [['a'], ['c']] := by
  have hissued : Issued (bundleFrom ['c'] 1 10) := (by decide : (0 : ℤ) ≤ 1)
  refine ⟨(sourcePriority_iff wf_holdingBoth (by decide) (by decide) (by decide) hissued).2 fun h => ?_,
    by decide +kernel⟩
  -- the bundle of `b` passes the test of the selector
  have hpicks := h.2.1 ((withRoom 2 4).newStore (bundleFrom ['b'] 1 20) 0)
    (mem_cons_of_mem _ mem_cons_self) rfl
  exact absurd hpicks (by decide)

/-- The front of a buffer of own bundles goes for a bundle of another agent. -/
theorem not_sourcePriority : ¬ ∀ (s : Buffer) (b : TimedBundle) (now draw : ℚ), s.Wf →
    0 < s.maxBundlesInLocalBuffer → s.freePlace = false →
    1 ≤ s.dropPolicie ∧ s.dropPolicie ≤ 9 → Issued b → SourcePriority sameUtility s b now draw := by
  intro h
  have hprot := h (holding 2 (bundleFrom ['a'] 1 0)) (bundleFrom ['b'] 1 0) 0 0 (wf_holding _ _)
    (by decide) (by decide) (by decide) (by decide : (0 : ℤ) ≤ 1)
  have hadd : ∃ s', (holding 2 (bundleFrom ['a'] 1 0)).addBundle sameUtility (bundleFrom ['b'] 1 0)
      0 0 = some (s', 1) ∧ s'.bundleStoreList =
        [(withRoom 1 2).newStore (bundleFrom ['b'] 1 0) 0] := ⟨_, rfl, rfl⟩
  obtain ⟨s', hs', hlist⟩ := hadd
  have hown := hprot s' 1 hs' ((withRoom 1 2).newStore (bundleFrom ['a'] 1 0) 0)
    mem_cons_self (fun hmem => ?_) rfl
  · cases hown.1
  · rw [hlist] at hmem
    cases congrArg (fun x => x.b.src) (mem_singleton.1 hmem)

end Buffer

end EpidemicRouting

end Ns2
