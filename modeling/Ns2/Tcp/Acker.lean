import Mathlib.Algebra.BigOperators.Intervals
import Mathlib.Algebra.Order.BigOperators.Group.Finset
import Mathlib.Data.BitVec
import Ns2.Lib.Keyed
import Ns2.Lib.Machine

/-! The receiver's `Acker`: the sizes of the packets from `next_` to one behind `maxseen_`
stand in a circular buffer that doubles when a packet is too far ahead. The sum that `update`
returns is an `int` and wraps. -/

namespace Ns2

open List Function

/-- `wndmask_` is the size of the buffer minus 1. -/
structure Acker where
  next : ℕ
  maxseen : ℕ
  wndmask : ℕ
  seen : ℕ → ℤ
  isDup : Bool

namespace Acker

variable {i next : ℕ}

/-- `MWS`. -/
def mws : ℕ := 64

def init : Acker := ⟨0, 0, mws - 1, fun _ => 0, false⟩

def resizeBuffers (sz : ℕ) (a : Acker) : Acker :=
  { a with
    seen := Slots.writes (fun i => i &&& (sz - 1)) (fun i => a.seen (i &&& a.wndmask))
      (range' a.next (a.maxseen + 2 - a.next)) fun _ => 0
    wndmask := sz - 1 }

/-- The buffer is doubled until the packet fits. -/
def grow (seq : ℕ) (a : Acker) : Acker :=
  if a.next + a.wndmask ≤ seq + 1 then grow seq (a.resizeBuffers ((a.wndmask + 1) * 2)) else a
termination_by seq + 2 - (a.next + a.wndmask)
decreasing_by
  simp only [resizeBuffers]
  omega

/-- The packet is the highest one so far. -/
def extend (seq : ℕ) (numBytes : ℤ) (a : Acker) : Acker :=
  let cleared := Slots.writes (fun i => i &&& a.wndmask) (fun _ => 0)
    (range' (a.maxseen + 1) (seq - (a.maxseen + 1))) a.seen
  { a with
    maxseen := seq
    seen := Function.update (Function.update cleared (seq &&& a.wndmask) numBytes)
      ((seq + 1) &&& a.wndmask) 0 }

/-- The loop over the packets in order; without fuel it would run on. -/
def deliver (wndmask : ℕ) (seen : ℕ → ℤ) : ℕ → ℕ → BitVec 32 → Option (ℕ × BitVec 32)
  | 0, _, _ => none
  | fuel + 1, next, numToDeliver =>
    if seen (next &&& wndmask) ≠ 0 then
      deliver wndmask seen fuel (next + 1) (numToDeliver + ↑(seen (next &&& wndmask)))
    else some (next, numToDeliver)

/-- A loop of more than `wndmask + 1` steps has met every cell and never ends. -/
def update (seq : ℕ) (numBytes : ℤ) (a : Acker) : Option (Acker × BitVec 32) :=
  let old := a.grow seq
  let a := if seq > old.maxseen then old.extend seq numBytes else old
  if a.next ≤ seq ∧ seq ≤ a.maxseen then
    let seen := Function.update a.seen (seq &&& a.wndmask) numBytes
    (deliver a.wndmask seen (a.wndmask + 2) a.next 0).map fun r =>
      ({ a with
        next := r.1
        seen := seen
        isDup := a.seen (seq &&& a.wndmask) ≠ 0 ∧ ¬ seq > old.maxseen }, r.2)
  else some ({ a with isDup := seq < a.next }, 0)

def machine : Machine Acker (ℕ × ℤ) (BitVec 32) where
  step a o := a.update o.1 o.2

/-- The packets of a history, the last arrival first. -/
def packets (hist : List (ℕ × ℤ)) : List ℕ := hist.map Prod.fst

/-- The packets up to `i` have all been received. -/
def Delivered (hist : List (ℕ × ℤ)) (i : ℕ) : Prop := ∀ j ≤ i, j ∈ packets hist

instance (hist : List (ℕ × ℤ)) (i : ℕ) : Decidable (Delivered hist i) :=
  inferInstanceAs (Decidable (∀ j ≤ i, j ∈ packets hist))

/-- The size recorded for a packet: that of its last copy before it is delivered. -/
def recorded : List (ℕ × ℤ) → ℕ → ℤ
  | [], _ => 0
  | (seq, numBytes) :: hist, i =>
    if i = seq ∧ ¬ Delivered hist i then numBytes else recorded hist i

/-- The buffer holds the recorded sizes from `next_` to one behind `maxseen_`. -/
structure Window (hist : List (ℕ × ℤ)) (a : Acker) : Prop where
  mask : ∃ k, a.wndmask = 2 ^ k - 1
  below : ∀ i < a.next, i ∈ packets hist
  above : ∀ i ∈ packets hist, i ≤ a.maxseen
  left : a.next ≤ a.maxseen + 1
  room : a.maxseen + 1 ≤ a.next + a.wndmask
  slots : Slots.Holds (fun i => i &&& a.wndmask) (Set.Icc a.next (a.maxseen + 1)) a.seen
    (recorded hist)

variable {a a' : Acker} {hist : List (ℕ × ℤ)} {seq : ℕ} {numBytes : ℤ}

theorem recorded_of_not_mem (h : i ∉ packets hist) : recorded hist i = 0 := by
  induction hist with
  | nil => rfl
  | cons o hist ih =>
    obtain ⟨hne, htail⟩ : i ≠ o.1 ∧ i ∉ packets hist := by simpa [packets] using h
    rw [recorded, if_neg fun hi => hne hi.1, ih htail]

theorem recorded_pos (hpos : ∀ o ∈ hist, 0 < o.2) (h : i ∈ packets hist) : 0 < recorded hist i := by
  induction hist with
  | nil => cases h
  | cons o hist ih =>
    rw [recorded]
    split_ifs with hi
    · exact hpos o mem_cons_self
    · apply ih fun o ho => hpos o (mem_cons_of_mem _ ho)
      rcases mem_cons.1 h with rfl | h
      · by_contra hnot
        exact hi ⟨rfl, fun hdel => hnot (hdel _ le_rfl)⟩
      · exact h

theorem recorded_ne_zero (hpos : ∀ o ∈ hist, 0 < o.2) : recorded hist i ≠ 0 ↔ i ∈ packets hist := by
  constructor
  · intro h
    by_contra hnot
    exact h (recorded_of_not_mem hnot)
  · intro h
    have := recorded_pos hpos h
    omega

theorem recorded_cons_of_delivered (h : Delivered hist seq) :
    recorded ((seq, numBytes) :: hist) = recorded hist := by
  funext i
  rw [recorded, if_neg]
  rintro ⟨rfl, hnot⟩
  exact hnot h

theorem recorded_cons_of_not_delivered (h : ¬ Delivered hist seq) :
    recorded ((seq, numBytes) :: hist) = Function.update (recorded hist) seq numBytes := by
  funext i
  by_cases hi : i = seq
  · subst hi
    rw [update_self, recorded, if_pos ⟨rfl, h⟩]
  · rw [update_of_ne hi, recorded, if_neg fun hc => hi hc.1]

theorem Window.injOn (h : a.Window hist) {b : ℕ} (hb : b ≤ a.next + a.wndmask) :
    Set.InjOn (fun i => i &&& a.wndmask) (Set.Icc a.next b) := by
  obtain ⟨k, hk⟩ := h.mask
  have := Nat.one_le_two_pow (n := k)
  rw [hk] at hb ⊢
  exact (mask_injOn a.next k).mono (Set.Icc_subset_Ico_right (by omega))

theorem Window.resizeBuffers (h : a.Window hist) :
    (a.resizeBuffers ((a.wndmask + 1) * 2)).Window hist := by
  obtain ⟨k, hk⟩ := h.mask
  have hpow := Nat.one_le_two_pow (n := k)
  have hmask : (a.wndmask + 1) * 2 - 1 = 2 ^ (k + 1) - 1 := by
    rw [hk, pow_succ]
    omega
  have hroom : a.maxseen + 1 ≤ a.next + ((a.wndmask + 1) * 2 - 1) := by
    have := h.room
    omega
  refine ⟨⟨k + 1, hmask⟩, h.below, h.above, h.left, hroom, ?_⟩
  apply h.slots.copy
  · intro i
    have := h.left
    simp only [mem_range'_1, Set.mem_Icc]
    omega
  · dsimp only [Acker.resizeBuffers]
    rw [hmask] at hroom ⊢
    have := Nat.one_le_two_pow (n := k + 1)
    exact (mask_injOn a.next (k + 1)).mono (Set.Icc_subset_Ico_right (by omega))

theorem Window.grow (h : a.Window hist) (seq : ℕ) : (a.grow seq).Window hist ∧
    seq + 1 < (a.grow seq).next + (a.grow seq).wndmask ∧ (a.grow seq).next = a.next ∧
    (a.grow seq).maxseen = a.maxseen := by
  fun_induction Acker.grow seq a with
  | case1 a hfar ih => exact ih h.resizeBuffers
  | case2 a hnear => exact ⟨h, by omega, rfl, rfl⟩

theorem deliver_eq {wndmask : ℕ} {seen : ℕ → ℤ} {f : ℕ → ℤ} {stop : ℕ} {fuel : ℕ}
    (hslots : Slots.Holds (fun i => i &&& wndmask) (Set.Icc next stop) seen f) (hstop : f stop = 0)
    (hle : next ≤ stop) (hfuel : stop < next + fuel) (numToDeliver : BitVec 32) :
    ∃ m, next ≤ m ∧ m ≤ stop ∧ (∀ i, next ≤ i → i < m → f i ≠ 0) ∧ f m = 0 ∧
      deliver wndmask seen fuel next numToDeliver =
        some (m, numToDeliver + ↑(∑ i ∈ Finset.Ico next m, f i)) := by
  induction fuel generalizing next numToDeliver with
  | zero => omega
  | succ fuel ih =>
    have hnext : seen (next &&& wndmask) = f next := hslots next ⟨le_rfl, hle⟩
    rw [deliver, hnext]
    by_cases hzero : f next = 0
    · rw [if_neg (not_not.2 hzero)]
      exact ⟨next, le_rfl, hle, fun i h₁ h₂ => by omega, hzero, by simp⟩
    · rw [if_pos hzero]
      have hne : next ≠ stop := by
        rintro rfl
        exact hzero hstop
      obtain ⟨m, h₁, h₂, hmem, hm, heq⟩ :=
        ih (hslots.mono (Set.Icc_subset_Icc_left (Nat.le_succ next))) (by omega) (by omega)
          (numToDeliver + ↑(f next))
      refine ⟨m, by omega, h₂, fun i h₃ h₄ => ?_, hm, ?_⟩
      · rcases Nat.eq_or_lt_of_le h₃ with rfl | h₃
        · exact hzero
        · exact hmem i h₃ h₄
      · rw [heq, Finset.sum_eq_sum_Ico_succ_bot (show next < m by omega), Int.cast_add, add_assoc]

theorem Window.extend (h : a.Window hist) (hroom : seq + 1 < a.next + a.wndmask)
    (hnew : a.maxseen < seq) (numBytes : ℤ) : (a.extend seq numBytes).Window ((seq, numBytes) :: hist) := by
  have hleft := h.left
  have hnot : seq ∉ packets hist := fun hmem => by
    have := h.above seq hmem
    omega
  have hrec : recorded ((seq, numBytes) :: hist) = Function.update (recorded hist) seq numBytes :=
    recorded_cons_of_not_delivered fun hdel => hnot (hdel seq le_rfl)
  have hsub : insert (seq + 1) (insert seq (Set.Ico a.next seq)) ⊆
      Set.Icc a.next (a.next + a.wndmask) := by
    rintro i (rfl | rfl | hi)
    · exact ⟨by omega, by omega⟩
    · exact ⟨by omega, by omega⟩
    · have := hi.2
      exact ⟨hi.1, by omega⟩
  have hinj := (h.injOn le_rfl).mono hsub
  refine ⟨h.mask, fun i hi => mem_cons_of_mem _ (h.below i hi), fun i hi => ?_, ?_, ?_, ?_⟩
  · rcases mem_cons.1 hi with rfl | hi
    · exact le_rfl
    · exact (h.above i hi).trans hnew.le
  · dsimp only [Acker.extend]
    omega
  · dsimp only [Acker.extend]
    omega
  · have hcleared : Slots.Holds (fun i => i &&& a.wndmask) (Set.Ico a.next seq)
        (Slots.writes (fun i => i &&& a.wndmask) (fun _ => 0)
          (range' (a.maxseen + 1) (seq - (a.maxseen + 1))) a.seen)
        (recorded ((seq, numBytes) :: hist)) := by
      apply h.slots.writes
      · exact hinj.mono fun i hi => Set.mem_insert_of_mem _ (Set.mem_insert_of_mem _ hi)
      · intro i hi
        rw [mem_range'_1] at hi
        exact ⟨by omega, by omega⟩
      · intro i hi
        have := hi.1
        have := hi.2
        rw [mem_range'_1, Set.mem_Icc]
        omega
      · intro i hi
        rw [mem_range'_1] at hi
        rw [hrec, update_of_ne (by omega), recorded_of_not_mem]
        intro hmem
        have := h.above i hmem
        omega
      · intro i hi _
        rw [hrec, update_of_ne hi.2.ne]
    have hseq : recorded ((seq, numBytes) :: hist) seq = numBytes := by
      rw [hrec, update_self]
    have hbehind : recorded ((seq, numBytes) :: hist) (seq + 1) = 0 := by
      rw [hrec, update_of_ne (by omega), recorded_of_not_mem]
      intro hmem
      have := h.above _ hmem
      omega
    have hfull := (hcleared.insert (hinj.mono (Set.subset_insert _ _))).insert hinj
    rw [hseq, hbehind] at hfull
    refine hfull.mono fun i hi => ?_
    have h₁ : a.next ≤ i := hi.1
    have h₂ : i ≤ seq + 1 := hi.2
    simp only [Set.mem_insert_iff, Set.mem_Ico]
    omega

theorem Window.mark (h : a.Window hist) (hle : a.next ≤ seq) (hseen : seq ≤ a.maxseen)
    (hnot : ¬ Delivered hist seq) :
    ({ a with seen := Function.update a.seen (seq &&& a.wndmask) numBytes } : Acker).Window
      ((seq, numBytes) :: hist) := by
  refine ⟨h.mask, fun i hi => mem_cons_of_mem _ (h.below i hi), fun i hi => ?_, h.left,
    h.room, ?_⟩
  · rcases mem_cons.1 hi with rfl | hi
    · exact hseen
    · exact h.above i hi
  · rw [recorded_cons_of_not_delivered hnot]
    exact h.slots.update (h.injOn h.room) ⟨hle, by omega⟩ numBytes

theorem Window.remark (h : a.Window hist) (hle : a.next ≤ seq) (hseen : seq ≤ a.maxseen) :
    ({ a with seen := Function.update a.seen (seq &&& a.wndmask) (recorded hist seq) } :
      Acker).Window hist := by
  have hmem : seq ∈ Set.Icc a.next (a.maxseen + 1) := ⟨hle, by omega⟩
  have hfull := h.slots.insert (by rw [Set.insert_eq_of_mem hmem]; exact h.injOn h.room)
  exact ⟨h.mask, h.below, h.above, h.left, h.room, hfull.mono (Set.subset_insert _ _)⟩

theorem Window.deliver (h : a.Window hist) (hpos : ∀ o ∈ hist, 0 < o.2) :
    ∃ m, a.next ≤ m ∧ m ∉ packets hist ∧
      (∀ d, ({ a with next := m, isDup := d } : Acker).Window hist) ∧
      Acker.deliver a.wndmask a.seen (a.wndmask + 2) a.next 0 =
        some (m, ↑(∑ i ∈ Finset.Ico a.next m, recorded hist i)) := by
  have hroom := h.room
  have hstop : recorded hist (a.maxseen + 1) = 0 := by
    apply recorded_of_not_mem
    intro hmem
    have := h.above _ hmem
    omega
  obtain ⟨m, hle, hstop, hmem, hm, heq⟩ :=
    deliver_eq h.slots hstop h.left (show a.maxseen + 1 < a.next + (a.wndmask + 2) by omega) 0
  refine ⟨m, hle, fun hin => (recorded_pos hpos hin).ne' hm, fun d => ?_, ?_⟩
  · refine ⟨h.mask, fun i hi => ?_, h.above, hstop, hroom.trans (Nat.add_le_add_right hle _),
      h.slots.mono (Set.Icc_subset_Icc_left hle)⟩
    rcases Nat.lt_or_ge i a.next with hlt | hge
    · exact h.below i hlt
    · exact (recorded_ne_zero hpos).1 (hmem i hge hi)
  · rw [heq, zero_add]

/-- What one `update` does. -/
structure Updates (hist : List (ℕ × ℤ)) (a : Acker) (seq : ℕ) (numBytes : ℤ) (a' : Acker)
    (numToDeliver : ℤ) : Prop where
  window : a'.Window ((seq, numBytes) :: hist)
  next : a'.next ∉ packets ((seq, numBytes) :: hist)
  isDup : a'.isDup = true ↔ seq ∈ packets hist
  trail : ∀ i, a.next ≤ i → i < a'.next → a'.seen (i &&& a'.wndmask) ≠ 0
  delivers : ∑ i ∈ Finset.range a'.next, recorded ((seq, numBytes) :: hist) i =
    ∑ i ∈ Finset.range a.next, recorded hist i + numToDeliver

theorem Window.old (h : a.Window hist) (hold : seq < a.next) (d : Bool) :
    ({ a with isDup := d } : Acker).Window ((seq, numBytes) :: hist) := by
  refine ⟨h.mask, fun i hi => mem_cons_of_mem _ (h.below i hi), fun i hi => ?_, h.left,
    h.room, ?_⟩
  · rcases mem_cons.1 hi with rfl | hi
    · exact h.above _ (h.below _ hold)
    · exact h.above i hi
  · rw [recorded_cons_of_delivered fun j hj => h.below j (by omega)]
    exact h.slots

theorem sum_recorded_cons (numBytes : ℤ) (hnot : ¬ Delivered hist seq) (hle : next ≤ seq) :
    ∑ i ∈ Finset.range next, recorded ((seq, numBytes) :: hist) i =
      ∑ i ∈ Finset.range next, recorded hist i := by
  apply Finset.sum_congr rfl
  intro i hi
  have := Finset.mem_range.1 hi
  rw [recorded_cons_of_not_delivered hnot, update_of_ne (by omega)]

theorem Window.updates (h : a.Window hist) (hnext : a.next ∉ packets hist)
    (hpos : ∀ o ∈ hist, 0 < o.2) (hbytes : 0 < numBytes) (seq : ℕ) :
    ∃ (a' : Acker) (numToDeliver : ℤ), a.update seq numBytes = some (a', ↑numToDeliver) ∧
      Updates hist a seq numBytes a' numToDeliver := by
  obtain ⟨hgrow, hroom, hnexteq, hmaxeq⟩ := h.grow seq
  have hleft := hgrow.left
  have hpos' : ∀ o ∈ (seq, numBytes) :: hist, 0 < o.2 := by
    intro o ho
    rcases mem_cons.1 ho with rfl | ho
    · exact hbytes
    · exact hpos o ho
  rw [update]
  set b := a.grow seq with hb
  dsimp only
  by_cases hold : seq < b.next
  · have hmem : seq ∈ packets hist := hgrow.below seq hold
    have hsmall : ¬ seq > b.maxseen := by omega
    rw [if_neg hsmall, if_neg (by omega)]
    refine ⟨_, 0, rfl, hgrow.old hold _, ?_, ?_, fun i h₁ h₂ => ?_, ?_⟩
    · dsimp only
      intro hin
      rcases mem_cons.1 hin with heq | hin
      · omega
      · exact hnext (hnexteq ▸ hin)
    · simp [hold, hmem]
    · dsimp only at h₂
      omega
    · rw [recorded_cons_of_delivered fun j hj => hgrow.below j (by omega), hnexteq, add_zero]
  · have hge : b.next ≤ seq := by omega
    have hnot : ¬ Delivered hist seq := fun hdel => hnext (hnexteq ▸ hdel b.next hge)
    have hrec : recorded ((seq, numBytes) :: hist) seq = numBytes := by
      rw [recorded_cons_of_not_delivered hnot, update_self]
    -- the new packet is recorded, then what is complete is delivered
    have hrecord : ∀ c : Acker, c.Window ((seq, numBytes) :: hist) → c.next = b.next →
        ∀ d : Bool, (d = true ↔ seq ∈ packets hist) → ∃ (a' : Acker) (numToDeliver : ℤ),
          (Acker.deliver c.wndmask c.seen (c.wndmask + 2) c.next 0).map
            (fun r => (({ c with next := r.1, isDup := d } : Acker), r.2)) =
              some (a', ↑numToDeliver) ∧ Updates hist a seq numBytes a' numToDeliver := by
      intro c hc hcnext d hd
      obtain ⟨m, hle, hm, hwin, heq⟩ := hc.deliver hpos'
      refine ⟨_, _, by rw [heq]; rfl, hwin d, hm, hd, fun i h₁ h₂ => ?_, ?_⟩
      · have hstop : m ≤ c.maxseen + 1 := (hwin d).left
        have hlt : i < m := h₂
        have hslot := hc.slots i ⟨by omega, by omega⟩
        exact hslot.trans_ne ((recorded_ne_zero hpos').2 ((hwin d).below i hlt))
      have hsum := sum_recorded_cons numBytes hnot hge
      dsimp only
      rw [← hnexteq, ← hsum, ← hcnext, Finset.range_eq_Ico, Finset.range_eq_Ico,
        Finset.sum_Ico_consecutive _ (Nat.zero_le _) hle]
    by_cases hnew : seq > b.maxseen
    · have hwin := hgrow.extend hroom hnew numBytes
      have hremark := hwin.remark hge le_rfl
      rw [hrec] at hremark
      rw [if_pos hnew, if_pos ⟨hge, le_rfl⟩]
      refine hrecord _ hremark rfl _ ?_
      have hmem : seq ∉ packets hist := fun hin => by
        have := hgrow.above seq hin
        omega
      simp [hnew, hmem]
    · have hseen : seq ≤ b.maxseen := by omega
      have hslot : b.seen (seq &&& b.wndmask) = recorded hist seq :=
        hgrow.slots seq ⟨hge, by omega⟩
      rw [if_neg hnew, if_pos ⟨hge, hseen⟩]
      refine hrecord _ (hgrow.mark hge hseen hnot) rfl _ ?_
      simp [hslot, hnew, ← recorded_ne_zero hpos]

/-- The receiver knows its history. -/
structure Tracks (hist : List (ℕ × ℤ)) (a : Acker) : Prop where
  window : a.Window hist
  next : a.next ∉ packets hist
  sizes : ∀ o ∈ hist, 0 < o.2

theorem tracks_init : Tracks [] init := by
  refine ⟨⟨⟨6, rfl⟩, fun i hi => ?_, by simp [packets], ?_, ?_, fun i _ => rfl⟩, ?_, ?_⟩
  · cases hi
  · simp [init]
  · simp [init, mws]
  · simp [packets]
  · simp

theorem Tracks.update (h : Tracks hist a) (hbytes : 0 < numBytes) (seq : ℕ) :
    ∃ (a' : Acker) (numToDeliver : ℤ), a.update seq numBytes = some (a', ↑numToDeliver) ∧
      Tracks ((seq, numBytes) :: hist) a' ∧ Updates hist a seq numBytes a' numToDeliver := by
  obtain ⟨a', d, heq, hu⟩ := h.window.updates h.next h.sizes hbytes seq
  refine ⟨a', d, heq, ⟨hu.window, hu.next, fun o ho => ?_⟩, hu⟩
  rcases mem_cons.1 ho with rfl | ho
  · exact hbytes
  · exact h.sizes o ho

/-- The bytes of the packets that are complete with the arrival `o`. -/
def bytesDelivered (hist : List (ℕ × ℤ)) (o : ℕ × ℤ) : ℤ :=
  ∑ i ∈ (Finset.range (hist.length + 1)).filter
    (fun i => Delivered (o :: hist) i ∧ ¬ Delivered hist i), recorded (o :: hist) i

/-- The bytes for each arrival in turn. -/
def deliveries : List (ℕ × ℤ) → List (ℕ × ℤ) → List ℤ
  | _, [] => []
  | hist, o :: ops => bytesDelivered hist o :: deliveries (o :: hist) ops

theorem Tracks.delivered_iff (h : Tracks hist a) : Delivered hist i ↔ i < a.next := by
  constructor
  · intro hdel
    by_contra hle
    exact h.next (hdel a.next (by omega))
  · exact fun hi j hj => h.window.below j (by omega)

theorem Tracks.next_le_length (h : Tracks hist a) : a.next ≤ hist.length := by
  have hsub : Finset.range a.next ⊆ (packets hist).toFinset := fun i hi =>
    mem_toFinset.2 (h.window.below i (Finset.mem_range.1 hi))
  calc a.next = (Finset.range a.next).card := (Finset.card_range _).symm
    _ ≤ (packets hist).toFinset.card := Finset.card_le_card hsub
    _ ≤ (packets hist).length := toFinset_card_le _
    _ = hist.length := length_map ..

theorem Updates.eq_bytesDelivered {d : ℤ} (h : Tracks hist a)
    (h' : Tracks ((seq, numBytes) :: hist) a') (hu : Updates hist a seq numBytes a' d) :
    d = bytesDelivered hist (seq, numBytes) := by
  have hle : a.next ≤ a'.next := by
    by_contra hlt
    exact h'.next (mem_cons_of_mem _ (h.window.below _ (by omega)))
  have hset : (Finset.range (hist.length + 1)).filter
      (fun i => Delivered ((seq, numBytes) :: hist) i ∧ ¬ Delivered hist i) =
        Finset.Ico a.next a'.next := by
    have hlen := h'.next_le_length
    rw [length_cons] at hlen
    ext i
    rw [Finset.mem_filter, Finset.mem_range, h.delivered_iff, h'.delivered_iff, Finset.mem_Ico]
    omega
  have hkeep : ∑ i ∈ Finset.range a.next, recorded ((seq, numBytes) :: hist) i =
      ∑ i ∈ Finset.range a.next, recorded hist i := by
    refine Finset.sum_congr rfl fun i hi => ?_
    have hdel : Delivered hist i := h.delivered_iff.2 (Finset.mem_range.1 hi)
    rw [recorded, if_neg fun hi => hi.2 hdel]
  have hsum := hu.delivers
  rw [Finset.range_eq_Ico, ← Finset.sum_Ico_consecutive _ (Nat.zero_le _) hle,
    ← Finset.range_eq_Ico, hkeep] at hsum
  rw [bytesDelivered, hset]
  exact (add_left_cancel hsum).symm

theorem Tracks.run (h : Tracks hist a) {ops : List (ℕ × ℤ)} (hops : ∀ o ∈ ops, 0 < o.2) :
    ∃ a', machine.run a ops = some (a', (deliveries hist ops).map fun d : ℤ => (d : BitVec 32)) ∧
      Tracks (ops.reverse ++ hist) a' ∧
      ∑ i ∈ Finset.range a'.next, recorded (ops.reverse ++ hist) i =
        ∑ i ∈ Finset.range a.next, recorded hist i + (deliveries hist ops).sum := by
  induction ops generalizing a hist with
  | nil => exact ⟨a, rfl, h, by simp [deliveries]⟩
  | cons o ops ih =>
    obtain ⟨a₁, d, hstep, h₁, hu⟩ := h.update (hops o mem_cons_self) o.1
    obtain rfl : d = bytesDelivered hist o := hu.eq_bytesDelivered h h₁
    obtain ⟨a', hrun, h', hsum⟩ := ih h₁ fun o ho => hops o (mem_cons_of_mem _ ho)
    refine ⟨a', ?_, ?_, ?_⟩
    · rw [Machine.run_cons machine ops hstep, hrun]
      rfl
    · simpa using h'
    · rw [reverse_cons, append_assoc, singleton_append, deliveries, sum_cons, hsum,
        hu.delivers, add_assoc]

end Acker

end Ns2
