import Ns2.Dtn.SourcePriority

/-! The victims of the first drop policies: which bundle `add_with_drop_tail` gives up, and
when the selectors by age find the oldest and the youngest bundle of another agent. -/

namespace Ns2

open List Option

namespace EpidemicRouting

theorem exists_last_of_mem {α : Type*} {p : α → Bool} {l : List α} (h : ∃ x ∈ l, p x = false) :
    ∃ l₁ x l₂, l = l₁ ++ x :: l₂ ∧ p x = false ∧ ∀ y ∈ l₂, p y = true := by
  induction l with
  | nil =>
    obtain ⟨x, hx, -⟩ := h
    cases hx
  | cons a l ih =>
    by_cases htail : ∃ x ∈ l, p x = false
    · obtain ⟨l₁, x, l₂, rfl, hx, hl₂⟩ := ih htail
      exact ⟨a :: l₁, x, l₂, rfl, hx, hl₂⟩
    · obtain ⟨x, hx, hpx⟩ := h
      have hall : ∀ y ∈ l, p y = true := fun y hy => by
        by_contra hpy
        exact htail ⟨y, hy, by simpa using hpy⟩
      rcases mem_cons.1 hx with rfl | hx
      · exact ⟨[], x, l, rfl, hpx, hall⟩
      · exact absurd ⟨x, hx, hpx⟩ htail

/-- With a comparison that is a strict weak order, the bundle selected is not beaten by any
other. -/
theorem selectMessage_best {V : Type*} {beats : V → V → Bool} (exempt : StoredBundle → Bool)
    (value : StoredBundle → V) (hasymm : ∀ a b, beats a b = true → beats b a = false)
    (htrans : ∀ a b c, beats a b = false → beats b c = false → beats a c = false)
    (l : List StoredBundle) (i : ℕ) (r : ℕ × V) :
    (selectMessage beats exempt value l i r = r ∧
      ∀ y ∈ l, exempt y = false → beats (value y) r.2 = false) ∨
    ∃ j y, l[j]? = some y ∧ exempt y = false ∧ beats (value y) r.2 = true ∧
      selectMessage beats exempt value l i r = (i + j, value y) ∧
      ∀ z ∈ l, exempt z = false → beats (value z) (value y) = false := by
  have hirr : ∀ a, beats a a = false := fun a => by
    by_contra ha
    have ha : beats a a = true := by simpa using ha
    exact absurd (hasymm a a ha) (by simp [ha])
  induction l generalizing i r with
  | nil => exact Or.inl ⟨rfl, fun y hy => by cases hy⟩
  | cons x l ih =>
    rw [selectMessage]
    by_cases hx : beats (value x) r.2 = true ∧ exempt x = false
    · rw [if_pos hx]
      refine Or.inr ?_
      rcases ih (i + 1) (i, value x) with ⟨heq, hnone⟩ | ⟨j, y, hy, hey, hbeats, heq, hbest⟩
      · refine ⟨0, x, rfl, hx.2, hx.1, by rw [heq, Nat.add_zero], fun z hz hez => ?_⟩
        rcases mem_cons.1 hz with rfl | hz
        · exact hirr _
        · exact hnone z hz hez
      · refine ⟨j + 1, y, hy, hey, ?_, by rw [heq, Nat.add_assoc, Nat.add_comm 1], ?_⟩
        · by_contra hnot
          have hlost := htrans _ _ _ (hasymm _ _ hbeats) (by simpa using hnot)
          simp [hx.1] at hlost
        · intro z hz hez
          rcases mem_cons.1 hz with rfl | hz
          · exact hasymm _ _ hbeats
          · exact hbest z hz hez
    · rw [if_neg hx]
      have hx : exempt x = false → beats (value x) r.2 = false := fun hex => by
        simpa [hex] using hx
      rcases ih (i + 1) r with ⟨heq, hnone⟩ | ⟨j, y, hy, hey, hbeats, heq, hbest⟩
      · refine Or.inl ⟨heq, fun y hy hey => ?_⟩
        rcases mem_cons.1 hy with rfl | hy
        · exact hx hey
        · exact hnone y hy hey
      · refine Or.inr ⟨j + 1, y, hy, hey, hbeats, by rw [heq, Nat.add_assoc, Nat.add_comm 1], ?_⟩
        intro z hz hez
        rcases mem_cons.1 hz with rfl | hz
        · exact htrans _ _ _ (hx hez) (hasymm _ _ hbeats)
        · exact hbest z hz hez

namespace Buffer

variable {s s' : Buffer} {b : TimedBundle} {now : ℚ}
variable {l r : List StoredBundle} {x : StoredBundle}

/-- Drop-tail as it is meant: an own bundle takes the place of the last bundle of another agent,
and it is discarded where there is none, as is every bundle of another agent. -/
def TailDropped (s : Buffer) (b : TimedBundle) (now : ℚ) (s' : Buffer) : Prop :=
  (s.isMyMessage b = false → s' = s) ∧
  (s.isMyMessage b = true → s.AllMine → s' = s) ∧
  (s.isMyMessage b = true → ∀ l x r, s.bundleStoreList = l ++ x :: r → s.isMine x = false →
    (∀ y ∈ r, s.isMine y = true) →
    s' = { s with bundleStoreList := l ++ r ++ [s.newStore b now] })

theorem getPointerTo_zero (s : Buffer) : s.getPointerTo 0 = none := by
  simp [getPointerTo]

theorem Wf.getPointerTo_eq (h : s.Wf) {p : ℕ} (hp : p < s.bundleStoreList.length) :
    s.getPointerTo (p + 1) = s.bundleStoreList[p]? := by
  have hcount := h.count
  rw [getPointerTo, if_pos ⟨by omega, by omega⟩, Nat.add_sub_cancel]

theorem AllMine.lastForeign_eq (h : s.AllMine) (n : ℕ) : s.lastForeign n = none := by
  induction n with
  | zero => rw [lastForeign, getPointerTo_zero, map_none]
  | succ n ih =>
    rw [lastForeign]
    cases hx : s.getPointerTo (n + 1) with
    | none => rfl
    | some x => rw [bind_some, if_pos (h x (getPointerTo_mem hx)), ih]

theorem Wf.lastForeign_eq (h : s.Wf) (hl : s.bundleStoreList = l ++ x :: r)
    (hx : s.isMine x = false) (hr : ∀ y ∈ r, s.isMine y = true) {k : ℕ} (hk : k ≤ r.length) :
    s.lastForeign (l.length + k + 1) = some (l.length + 1) := by
  induction k with
  | zero =>
    rw [lastForeign, Nat.add_zero, h.getPointerTo_eq (by simp [hl]), hl]
    simp [hx]
  | succ k ih =>
    have hlt : k < r.length := hk
    have hat : s.bundleStoreList[l.length + (k + 1)]? = some r[k] := by
      simp [hl, getElem?_append_right]
    rw [lastForeign, h.getPointerTo_eq (by simp [hl]; omega), hat, bind_some,
      if_pos (hr _ (getElem_mem hlt))]
    exact ih (by omega)

theorem Wf.findIdx?_eq (h : s.Wf) (hl : s.bundleStoreList = l ++ x :: r) :
    (s.bundleStoreList.findIdx? fun y => x.id = y.id) = some l.length := by
  have hnodup : (l.map StoredBundle.id ++ x.id :: r.map StoredBundle.id).Nodup := by
    have := h.nodup
    rwa [ids, hl, map_append, map_cons] at this
  have hnew : ∀ y ∈ l, x.id ≠ y.id := fun y hy heq =>
    (nodup_append.1 hnodup).2.2 y.id (mem_map_of_mem hy) x.id mem_cons_self heq.symm
  rw [hl, findIdx?_append, findIdx?_eq_none_iff.2 (fun y hy => by simp [hnew y hy]),
    findIdx?_cons]
  simp

theorem Wf.addWithDropTail_eq (h : s.Wf) (hb : s.isMyMessage b = true)
    (hl : s.bundleStoreList = l ++ x :: r) (hx : s.isMine x = false)
    (hr : ∀ y ∈ r, s.isMine y = true) :
    s.addWithDropTail b now =
      some { s with bundleStoreList := l ++ r ++ [s.newStore b now] } := by
  have hcount : s.numberOfBufferedBundles.toNat = l.length + r.length + 1 := by
    rw [h.count, hl]
    simp
    omega
  have hat : s.getPointerTo (l.length + 1) = some x := by
    rw [h.getPointerTo_eq (by simp [hl]), hl]
    simp
  rw [addWithDropTail, hb, Bool.not_true, if_neg (by decide), hcount,
    h.lastForeign_eq hl hx hr le_rfl, bind_some, if_neg (Nat.succ_ne_zero _), hat,
    bind_some, h.findIdx?_eq hl]
  change s.replace l.length b now = _
  rw [replace, if_pos (by simp [hl]), pushBack, hl, eraseIdx_append_of_length_le le_rfl,
    Nat.sub_self]
  rfl

/-- Drop-tail does what it is meant for unless an own bundle comes to a buffer of own bundles
only, where the search goes on to a position that no bundle has. -/
theorem tailDropped_iff (h : s.Wf) :
    (∃ s', s.addWithDropTail b now = some s' ∧ TailDropped s b now s') ↔
      (s.isMyMessage b = true → ∃ x ∈ s.bundleStoreList, s.isMine x = false) := by
  by_cases hb : s.isMyMessage b = true
  · rw [imp_iff_right hb]
    constructor
    · rintro ⟨s', hs', -⟩
      by_contra hnone
      have hall : s.AllMine := fun y hy => by
        by_contra hy'
        exact hnone ⟨y, hy, by simpa using hy'⟩
      rw [addWithDropTail, hb, Bool.not_true, if_neg (by decide), hall.lastForeign_eq,
        bind_none] at hs'
      cases hs'
    · intro hforeign
      obtain ⟨l, x, r, hl, hx, hr⟩ := exists_last_of_mem hforeign
      refine ⟨_, h.addWithDropTail_eq hb hl hx hr, fun hb' => by simp [hb] at hb', ?_, ?_⟩
      · intro _ hall
        simp [hall x (by simp [hl])] at hx
      · intro _ l' x' r' hl' hx' hr'
        exact Option.some.inj ((h.addWithDropTail_eq hb hl hx hr).symm.trans
          (h.addWithDropTail_eq hb hl' hx' hr'))
  · have hb : s.isMyMessage b = false := by simpa using hb
    refine iff_of_true ⟨s, by simp [addWithDropTail, hb], fun _ => rfl, ?_, ?_⟩ ?_
    all_goals simp [hb]

/-- Behind the own bundle is one of another agent. -/
theorem tailDropped_iff_foreign :
    (∃ s', holdingBoth.addWithDropTail (bundleFrom ['a'] 2 0) 0 = some s' ∧
      TailDropped holdingBoth (bundleFrom ['a'] 2 0) 0 s') ↔
      (holdingBoth.isMyMessage (bundleFrom ['a'] 2 0) = true →
        ∃ x ∈ holdingBoth.bundleStoreList, holdingBoth.isMine x = false) :=
  tailDropped_iff wf_holdingBoth

/-- A full buffer with one own bundle, and another own bundle. -/
theorem not_tailDropped : ¬ ∀ (s : Buffer) (b : TimedBundle) (now : ℚ), s.Wf →
    s.freePlace = false → s.bundleStoreList ≠ [] →
    ∃ s', s.addWithDropTail b now = some s' ∧ TailDropped s b now s' := by
  intro h
  obtain ⟨s', hs', -⟩ := h (holding 1 (bundleFrom ['a'] 1 0)) (bundleFrom ['a'] 2 0) 0
    (wf_holding _ _) (by decide) (by simp [holding])
  have hnone : (holding 1 (bundleFrom ['a'] 1 0)).addWithDropTail (bundleFrom ['a'] 2 0) 0 = none :=
    rfl
  rw [hnone] at hs'
  cases hs'

/-- The place holds a bundle of another agent, and none of the others of these beats it. -/
def Picks (beats : ℚ → ℚ → Bool) (s : Buffer) (p : ℕ) : Prop :=
  ∃ x, s.bundleStoreList[p]? = some x ∧ s.isMine x = false ∧
    ∀ y ∈ s.bundleStoreList, s.isMine y = false →
      beats y.getElapsedTime x.getElapsedTime = false

/-- An oldest one of the bundles of others. -/
def IsOldest (s : Buffer) (p : ℕ) : Prop := s.Picks (fun t max => t > max) p

/-- A youngest one of the bundles of others. -/
def IsYoungest (s : Buffer) (p : ℕ) : Prop := s.Picks (fun t min => t < min) p

/-- The selection is right when a bundle of another agent beats the value it starts from, and
else when the first bundle is right already. -/
theorem picks_iff {beats : ℚ → ℚ → Bool} (hasymm : ∀ a b, beats a b = true → beats b a = false)
    (htrans : ∀ a b c, beats a b = false → beats b c = false → beats a c = false) (limit : ℚ) :
    s.Picks beats (selectMessage beats s.isMine StoredBundle.getElapsedTime s.bundleStoreList 0
      (0, limit)).1 ↔
      (∃ y ∈ s.bundleStoreList, s.isMine y = false ∧ beats y.getElapsedTime limit = true) ∨
      s.Picks beats 0 := by
  rcases selectMessage_best s.isMine StoredBundle.getElapsedTime hasymm htrans s.bundleStoreList 0
    (0, limit) with ⟨heq, hnone⟩ | ⟨j, y, hy, hey, hbeats, heq, hbest⟩
  · rw [heq]
    refine (or_iff_right ?_).symm
    rintro ⟨y, hy, hey, hbeats⟩
    simp [hnone y hy hey] at hbeats
  · rw [heq, Nat.zero_add]
    exact iff_of_true ⟨y, hy, hey, hbest⟩
      (Or.inl ⟨y, mem_of_getElem? hy, hey, hbeats⟩)

theorem picks_oldest_iff (hnonneg : ∀ x ∈ s.bundleStoreList, 0 ≤ x.getElapsedTime) :
    s.IsOldest s.getOldestMessage ↔
      (∃ y ∈ s.bundleStoreList, s.isMine y = false ∧ 0 < y.getElapsedTime) ∨
      ∃ x, s.bundleStoreList.head? = some x ∧ s.isMine x = false := by
  rw [IsOldest, getOldestMessage, picks_iff (fun a b h => by simp at h ⊢; exact h.le)
    (fun a b c h h' => by simp at h h' ⊢; exact h.trans h')]
  by_cases hpos : ∃ y ∈ s.bundleStoreList, s.isMine y = false ∧ 0 < y.getElapsedTime
  · exact iff_of_true (Or.inl (by simpa using hpos)) (Or.inl hpos)
  · rw [or_iff_right hpos, or_iff_right (by simpa using hpos), Picks, head?_eq_getElem?]
    constructor
    · rintro ⟨x, hx, hforeign, -⟩
      exact ⟨x, hx, hforeign⟩
    · rintro ⟨x, hx, hforeign⟩
      refine ⟨x, hx, hforeign, fun y hy hey => ?_⟩
      have hzero : y.getElapsedTime ≤ 0 := le_of_not_gt fun hlt => hpos ⟨y, hy, hey, hlt⟩
      simpa using hzero.trans (hnonneg x (mem_of_getElem? hx))

theorem picks_youngest_iff :
    s.IsYoungest s.getYoungestMessage ↔
      (∃ y ∈ s.bundleStoreList, s.isMine y = false ∧ y.getElapsedTime < 99999) ∨
      ∃ x, s.bundleStoreList.head? = some x ∧ s.isMine x = false ∧
        ∀ y ∈ s.bundleStoreList, s.isMine y = false → x.getElapsedTime ≤ y.getElapsedTime := by
  rw [IsYoungest, getYoungestMessage, picks_iff (fun a b h => by simp at h ⊢; exact h.le)
    (fun a b c h h' => by simp at h h' ⊢; exact h'.trans h), Picks, head?_eq_getElem?]
  simp

/-- Both selectors by age find a right victim, for elapsed times that are not negative, exactly
when a bundle of another agent lies inside the bound that their search starts from or the first
bundle is right already. -/
theorem ageVictims_iff (hnonneg : ∀ x ∈ s.bundleStoreList, 0 ≤ x.getElapsedTime) :
    (s.IsOldest s.getOldestMessage ↔
      (∃ y ∈ s.bundleStoreList, s.isMine y = false ∧ 0 < y.getElapsedTime) ∨
      ∃ x, s.bundleStoreList.head? = some x ∧ s.isMine x = false) ∧
    (s.IsYoungest s.getYoungestMessage ↔
      (∃ y ∈ s.bundleStoreList, s.isMine y = false ∧ y.getElapsedTime < 99999) ∨
      ∃ x, s.bundleStoreList.head? = some x ∧ s.isMine x = false ∧
        ∀ y ∈ s.bundleStoreList, s.isMine y = false → x.getElapsedTime ≤ y.getElapsedTime) :=
  ⟨picks_oldest_iff hnonneg, picks_youngest_iff⟩

/-- A buffer that holds an own bundle before one of another agent. -/
def ownFirst (elapsedTime : ℚ) : Buffer :=
  { withRoom 2 4 with
    numberOfBufferedBundles := 2
    bundleStoreList := [(withRoom 2 4).newStore (bundleFrom ['a'] 1 7) 0,
      (withRoom 2 4).newStore (bundleFrom ['b'] 1 elapsedTime) 0] }

theorem ageVictims_iff_ownFirst :
    ((ownFirst 20).IsOldest (ownFirst 20).getOldestMessage ↔
      (∃ y ∈ (ownFirst 20).bundleStoreList,
        (ownFirst 20).isMine y = false ∧ 0 < y.getElapsedTime) ∨
      ∃ x, (ownFirst 20).bundleStoreList.head? = some x ∧ (ownFirst 20).isMine x = false) ∧
    ((ownFirst 20).IsYoungest (ownFirst 20).getYoungestMessage ↔
      (∃ y ∈ (ownFirst 20).bundleStoreList,
        (ownFirst 20).isMine y = false ∧ y.getElapsedTime < 99999) ∨
      ∃ x, (ownFirst 20).bundleStoreList.head? = some x ∧ (ownFirst 20).isMine x = false ∧
        ∀ y ∈ (ownFirst 20).bundleStoreList, (ownFirst 20).isMine y = false →
          x.getElapsedTime ≤ y.getElapsedTime) :=
  ageVictims_iff (by simp [ownFirst, newStore, bundleFrom, StoredBundle.getElapsedTime])

/-- A bundle of another agent that is older than the bound is not found behind an own one. -/
theorem not_ageVictims : ¬ ∀ s : Buffer, (∀ x ∈ s.bundleStoreList, 0 ≤ x.getElapsedTime) →
    (∃ x ∈ s.bundleStoreList, s.isMine x = false) →
    s.IsOldest s.getOldestMessage ∧ s.IsYoungest s.getYoungestMessage := by
  intro h
  obtain ⟨x, hx, hforeign, -⟩ := (h (ownFirst 100000)
    (by simp [ownFirst, newStore, bundleFrom, StoredBundle.getElapsedTime])
    ⟨_, mem_cons_of_mem _ mem_cons_self, by decide⟩).2
  have hzero : (ownFirst 100000).getYoungestMessage = 0 := by decide +kernel
  rw [hzero] at hx
  obtain rfl := Option.some.inj hx
  exact absurd hforeign (by decide)

end Buffer

end EpidemicRouting

end Ns2
