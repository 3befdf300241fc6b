import Mathlib.Data.Rat.Floor

/-! The timers of the 802.11 station (`mac-timers.cc`). A timer that is busy and not paused has an event
scheduled at `due`; `none` is an assertion that fails. -/

namespace Ns2

/-- `assert(p)`, then `k`. -/
def asserting {α : Type*} (p : Prop) [Decidable p] (k : Option α) : Option α := if p then k else none

theorem asserting_pos {α : Type*} {p : Prop} [Decidable p] (h : p) (k : Option α) : asserting p k = k :=
  if_pos h

theorem asserting_neg {α : Type*} {p : Prop} [Decidable p] (h : ¬p) (k : Option α) :
    asserting p k = none :=
  if_neg h

/-- Only the backoff timer is ever paused. -/
structure MacTimer where
  busy : Bool
  stime : ℚ
  rtime : ℚ
deriving DecidableEq, Repr

namespace MacTimer

/-- A timer that is not busy, as the constructor, `stop` and `handle` leave it. -/
def off : MacTimer := ⟨false, 0, 0⟩

def due (t : MacTimer) : ℚ := t.stime + t.rtime

def expire (clock : ℚ) (t : MacTimer) : ℚ := t.stime + t.rtime - clock

def start (clock time : ℚ) (t : MacTimer) : Option MacTimer :=
  asserting (t.busy = false) (asserting (0 ≤ time) (some ⟨true, clock, time⟩))

def stop (t : MacTimer) : Option MacTimer := asserting (t.busy = true) (some off)

variable {t : MacTimer} {clock time : ℚ}

@[simp] theorem busy_off : off.busy = false := rfl

theorem start_eq (hbusy : t.busy = false) (htime : 0 ≤ time) :
    t.start clock time = some ⟨true, clock, time⟩ := by
  rw [start, asserting_pos hbusy, asserting_pos htime]

theorem start_eq_none (h : t.busy = true ∨ time < 0) : t.start clock time = none := by
  rw [start]
  rcases h with hbusy | htime
  · exact asserting_neg (by rw [hbusy]; decide) _
  · rw [asserting_neg (not_le.2 htime)]
    exact ite_self _

theorem stop_eq (hbusy : t.busy = true) : t.stop = some off :=
  asserting_pos hbusy _

end MacTimer

structure BackoffTimer extends MacTimer where
  paused : Bool
  difsWait : ℚ
deriving DecidableEq, Repr

namespace BackoffTimer

def off : BackoffTimer := ⟨MacTimer.off, false, 0⟩

def due (b : BackoffTimer) : ℚ := b.stime + (b.rtime + b.difsWait)

/-- `random` is what `Random::random()` returns. -/
def start (slotTime clock : ℚ) (random cw : ℕ) (idle : Bool) (difs : ℚ) (b : BackoffTimer) :
    Option BackoffTimer :=
  let rtime := ((random % cw : ℕ) : ℚ) * slotTime
  asserting (b.busy = false)
    (if idle = false then some ⟨⟨true, clock, rtime⟩, true, difs⟩
    else asserting (0 ≤ rtime + difs) (some ⟨⟨true, clock, rtime⟩, false, difs⟩))

/-- The slots that have passed, by the cast to `int`. -/
def slots (slotTime clock : ℚ) (b : BackoffTimer) : ℤ :=
  let sr := clock - (b.stime + b.difsWait)
  let slots := if 0 ≤ sr / slotTime then ⌊sr / slotTime⌋ else ⌈sr / slotTime⌉
  if slots < 0 then 0 else slots

def pause (slotTime clock : ℚ) (b : BackoffTimer) : Option BackoffTimer :=
  let rtime := b.rtime - b.slots slotTime clock * slotTime
  asserting (b.busy = true ∧ b.paused = false)
    (asserting (0 ≤ rtime) (some ⟨⟨b.busy, b.stime, rtime⟩, true, 0⟩))

def resume (clock difs : ℚ) (b : BackoffTimer) : Option BackoffTimer :=
  asserting (b.busy = true ∧ b.paused = true)
    (asserting (0 ≤ b.rtime + difs) (some ⟨⟨b.busy, clock, b.rtime⟩, false, difs⟩))

/-- A timer is paused only when busy, has no negative time left, and has not missed its event. -/
structure Sound (clock : ℚ) (b : BackoffTimer) : Prop where
  busy : b.paused = true → b.busy = true
  rtime : b.busy = true → 0 ≤ b.rtime
  due : b.busy = true → b.paused = false → clock ≤ b.due

variable {b : BackoffTimer} {slotTime clock difs : ℚ}

@[simp] theorem busy_off : off.busy = false := rfl

theorem sound_off (clock : ℚ) : off.Sound clock :=
  ⟨fun h => (Bool.false_ne_true h).elim, fun h => (Bool.false_ne_true h).elim,
    fun h => (Bool.false_ne_true h).elim⟩

theorem exists_start (hslot : 0 < slotTime) (hdifs : 0 ≤ difs) (hbusy : b.busy = false)
    (clock : ℚ) (random cw : ℕ) (idle : Bool) :
    ∃ b', b.start slotTime clock random cw idle difs = some b' ∧ b'.Sound clock ∧ b'.busy = true ∧
      b'.paused = !idle := by
  have hrtime : (0 : ℚ) ≤ ((random % cw : ℕ) : ℚ) * slotTime := by positivity
  rw [start, asserting_pos hbusy]
  cases idle with
  | false => exact ⟨_, if_pos rfl, ⟨fun _ => rfl, fun _ => hrtime, fun _ h => by cases h⟩, rfl, rfl⟩
  | true =>
    have hwait : 0 ≤ ((random % cw : ℕ) : ℚ) * slotTime + difs := by linarith
    rw [if_neg (by decide), asserting_pos hwait]
    refine ⟨_, rfl, ⟨fun _ => rfl, fun _ => hrtime, fun _ _ => ?_⟩, rfl, rfl⟩
    exact le_add_of_nonneg_right hwait

section

variable (h : b.Sound clock) (hslot : 0 < slotTime) (hbusy : b.busy = true)
  (hrun : b.paused = false)
include h hslot hbusy hrun

theorem Sound.slots_mul_le : (b.slots slotTime clock : ℚ) * slotTime ≤ b.rtime := by
  have hrtime := h.rtime hbusy
  have hdue : clock - (b.stime + b.difsWait) ≤ b.rtime := by
    have := h.due hbusy hrun
    rw [BackoffTimer.due] at this
    linarith
  rw [slots]
  generalize clock - (b.stime + b.difsWait) = sr at hdue
  by_cases hsr : 0 ≤ sr / slotTime
  · have hfloor : (⌊sr / slotTime⌋ : ℚ) * slotTime ≤ sr :=
      (le_div_iff₀ hslot).1 (Int.floor_le _)
    rw [if_pos hsr]
    split_ifs
    · rw [Int.cast_zero, zero_mul]
      exact hrtime
    · exact hfloor.trans hdue
  · have hceil : ⌈sr / slotTime⌉ ≤ 0 := Int.ceil_le.2 (by rw [Int.cast_zero]; linarith)
    have hzero : (if ⌈sr / slotTime⌉ < 0 then 0 else ⌈sr / slotTime⌉) = 0 := by
      split_ifs
      · rfl
      · omega
    rw [if_neg hsr, hzero, Int.cast_zero, zero_mul]
    exact hrtime

theorem Sound.exists_pause :
    ∃ b', b.pause slotTime clock = some b' ∧ b'.Sound clock ∧ b'.busy = true ∧ b'.paused = true := by
  have hrtime : 0 ≤ b.rtime - b.slots slotTime clock * slotTime :=
    sub_nonneg.2 (h.slots_mul_le hslot hbusy hrun)
  rw [pause, asserting_pos ⟨hbusy, hrun⟩, asserting_pos hrtime]
  exact ⟨_, rfl, ⟨fun _ => hbusy, fun _ => hrtime, fun _ hf => by cases hf⟩, hbusy, rfl⟩

end

theorem Sound.exists_resume (h : b.Sound clock) (hdifs : 0 ≤ difs) (hpaused : b.paused = true) :
    ∃ b', b.resume clock difs = some b' ∧ b'.Sound clock ∧ b'.busy = true ∧ b'.paused = false := by
  have hbusy := h.busy hpaused
  have hrtime := h.rtime hbusy
  have hwait : 0 ≤ b.rtime + difs := by linarith
  rw [resume, asserting_pos ⟨hbusy, hpaused⟩, asserting_pos hwait]
  refine ⟨_, rfl, ⟨fun hf => (Bool.false_ne_true hf).elim, fun _ => hrtime, fun _ _ => ?_⟩, hbusy, rfl⟩
  exact le_add_of_nonneg_right hwait

end BackoffTimer

end Ns2
