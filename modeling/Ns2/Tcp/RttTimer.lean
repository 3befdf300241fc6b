import Mathlib.Data.Rat.Floor
import Mathlib.Tactic.Positivity
import Ns2.Lib.Machine

/-! The retransmission timeout of `TcpAgent`: the averages in 32-bit integers with their 16-bit
difference, the backoff, and runs of samples, backoffs and timeouts. Times are rational. -/

namespace Ns2

/-- What an `int` keeps of a value. -/
def int32 (x : ℤ) : ℤ := x.bmod (2 ^ 32)

/-- What a `short` keeps of a value. -/
def int16 (x : ℤ) : ℤ := x.bmod (2 ^ 16)

/-- The cast of a `double` to `int`. -/
def truncate (q : ℚ) : ℤ := if 0 ≤ q then ⌊q⌋ else ⌈q⌉

/-- The parameters, with `T_SRTT_BITS` 3 and `T_RTTVAR_BITS` 2. -/
structure RttParams where
  tcpTick : ℚ
  minrto : ℚ
  maxrto : ℚ
  srttInit : ℤ
  rttvarInit : ℤ
  rtxcurInit : ℚ
  rttvarExp : ℕ
  rfc2988 : Bool
  tsOption : Bool
  bootTime : ℚ
  tcpTick_pos : 0 < tcpTick
  minrto_pos : 0 < minrto
  minrto_le : minrto ≤ maxrto
  tick_le : 2 * tcpTick ≤ maxrto
  srttInit_mem : 0 ≤ truncate (srttInit / tcpTick) ∧ truncate (srttInit / tcpTick) < 2 ^ 15
  rttvarInit_mem : 0 ≤ truncate (rttvarInit / tcpTick) ∧ truncate (rttvarInit / tcpTick) < 2 ^ 15
  rtxcurInit_nonneg : 0 ≤ rtxcurInit
  rttvarExp_le : rttvarExp ≤ 12

/-- The timer state of `TcpAgent`. -/
structure RttState where
  srtt : ℤ
  rttvar : ℤ
  rtxcur : ℚ
  backoff : ℤ
  useRtt : Bool

namespace RttState

variable (p : RttParams) (s : RttState)

/-- `rtt_init` -/
def init : RttState where
  srtt := int32 (truncate (p.srttInit / p.tcpTick) * 2 ^ 3)
  rttvar := int32 (truncate (p.rttvarInit / p.tcpTick) * 2 ^ 2)
  rtxcur := p.rtxcurInit
  backoff := 1
  useRtt := false

/-- The timeout of `rtt_timeout` before it is bounded. -/
def rawTimeout : ℚ :=
  if p.rfc2988 then
    if s.rtxcur < p.minrto ∧ ¬s.useRtt then p.minrto * s.backoff else s.rtxcur * s.backoff
  else if s.rtxcur * s.backoff < p.minrto then p.minrto else s.rtxcur * s.backoff

/-- `rtt_timeout`; `none` is the exit on a negative timeout. -/
def rttTimeout : Option (RttState × ℚ) :=
  let timeout := if s.rawTimeout p > p.maxrto then p.maxrto else s.rawTimeout p
  let s' := { s with useRtt := false }
  if timeout < 2 * p.tcpTick then
    if timeout < 0 then none
    else if s.useRtt ∧ timeout < p.tcpTick then some (s', p.tcpTick)
    else some (s', 2 * p.tcpTick)
  else some (s', timeout)

/-- The sample of `rtt_update` in ticks. -/
def sample (now tao : ℚ) : ℤ :=
  let ticks :=
    if p.tsOption then truncate (tao / p.tcpTick + 1 / 2)
    else
      let sendtime := now - tao + p.bootTime
      let tickoff := sendtime - p.tcpTick * truncate (sendtime / p.tcpTick)
      truncate ((tao + tickoff) / p.tcpTick)
  if ticks < 1 then 1 else ticks

/-- The two averages. -/
def average (rtt : ℤ) : RttState :=
  if s.srtt ≠ 0 then
    let delta := int16 (rtt - s.srtt / 2 ^ 3)
    let srtt := int32 (s.srtt + delta)
    let delta := if delta < 0 then int16 (-delta) else delta
    let delta := int16 (delta - s.rttvar / 2 ^ 2)
    let rttvar := int32 (s.rttvar + delta)
    { s with
      srtt := if srtt ≤ 0 then 1 else srtt
      rttvar := if rttvar ≤ 0 then 1 else rttvar }
  else
    { s with
      srtt := int32 (rtt * 2 ^ 3)
      rttvar := int32 (rtt * 2 ^ (2 - 1)) }

/-- `rtt_update` -/
def rttUpdate (now tao : ℚ) : RttState :=
  let s := s.average (sample p now tao)
  { s with
    rtxcur := (int32 (int32 (s.rttvar * 2 ^ (p.rttvarExp + (3 - 2))) + s.srtt) / 2 ^ 3 : ℤ) * p.tcpTick }

/-- `rtt_backoff` -/
def rttBackoff : RttState :=
  let backoff := if s.backoff < 64 ∨ p.rfc2988 then int32 (s.backoff * 2) else s.backoff
  if backoff > 8 then
    { s with
      backoff := backoff
      rttvar := int32 (s.rttvar + s.srtt / 2 ^ 3)
      srtt := 0 }
  else { s with backoff := backoff }

end RttState

/-- `reset` is `t_backoff_ = 1` of `newack`. -/
inductive RttEvent where
  | update (now tao : ℚ)
  | backoff
  | reset
  | timeout

/-- The timer, with the result of the last timeout since the last sample or reset. -/
structure RttRun where
  timer : RttState
  last : Option ℚ

/-- A timeout answers its result. -/
def rttTimer (p : RttParams) : Machine RttRun RttEvent (Option ℚ) where
  step r
    | .update now tao => some (⟨r.timer.rttUpdate p now tao, none⟩, none)
    | .backoff => some (⟨r.timer.rttBackoff p, r.last⟩, none)
    | .reset => some (⟨{ r.timer with backoff := 1 }, none⟩, none)
    | .timeout => (r.timer.rttTimeout p).map fun q => (⟨q.1, some q.2⟩, some q.2)

namespace RttRun

variable (p : RttParams)

def init : RttRun := ⟨.init p, none⟩

/-- The samples are below 2^15 ticks. -/
def SmallSample : RttEvent → Prop
  | .update now tao => RttState.sample p now tao < 2 ^ 15
  | _ => True

/-- The event does not exit, keeps the multiplier positive and the estimate non-negative, and answers a
timeout in its bounds that is no shorter than the one before. -/
def Valid (r : RttRun) (e : RttEvent) : Prop :=
  ∃ r' a, (rttTimer p).step r e = some (r', a) ∧ 0 < r'.timer.backoff ∧ 0 ≤ r'.timer.rtxcur ∧
    ∀ t ∈ a, 2 * p.tcpTick ≤ t ∧ t ≤ p.maxrto ∧ ∀ l ∈ r.last, l ≤ t

/-- The multiplier can be doubled in an `int`. -/
def CanDouble (r : RttRun) (e : RttEvent) : Prop :=
  e = .backoff → p.rfc2988 → r.timer.backoff < 2 ^ 30

/-- The averages stay in their ranges; the deviation may exceed its own only while the average is 0. -/
structure InRange (r : RttRun) : Prop where
  srtt_nonneg : 0 ≤ r.timer.srtt
  srtt_lt : r.timer.srtt < 2 ^ 18
  rttvar_nonneg : 0 ≤ r.timer.rttvar
  rttvar_le : r.timer.rttvar ≤ 131071 + 32767
  rttvar_le_of_ne : r.timer.srtt ≠ 0 → r.timer.rttvar ≤ 131071
  rtxcur : 0 ≤ r.timer.rtxcur
  backoff_pos : 0 < r.timer.backoff
  backoff_lt : r.timer.backoff < 2 ^ 31
  useRtt : r.timer.useRtt = false
  last : ∀ l ∈ r.last, ∀ t ∈ r.timer.rttTimeout p, l ≤ t.2

end RttRun

open RttRun

theorem int32_of_mem {x : ℤ} (h₀ : 0 ≤ x) (h : x < 2 ^ 31) : int32 x = x := by
  unfold int32
  rw [Int.bmod_eq_of_le] <;> omega

theorem int16_of_mem {x : ℤ} (h₀ : -2 ^ 15 ≤ x) (h : x < 2 ^ 15) : int16 x = x := by
  unfold int16
  rw [Int.bmod_eq_of_le] <;> omega

section

variable {p : RttParams} {s : RttState} {r : RttRun} {e : RttEvent}

theorem one_le_sample (now tao : ℚ) : 1 ≤ RttState.sample p now tao := by
  simp only [RttState.sample]
  generalize (if p.tsOption then _ else _ : ℤ) = ticks
  split <;> omega

/-- A sample moves the averages within their ranges. -/
theorem average_mem {rtt : ℤ} (hr : InRange p r) (h₁ : 1 ≤ rtt) (h₂ : rtt < 2 ^ 15) :
    0 < (r.timer.average rtt).srtt ∧ (r.timer.average rtt).srtt < 2 ^ 18 ∧
      0 < (r.timer.average rtt).rttvar ∧ (r.timer.average rtt).rttvar ≤ 131071 := by
  have hs := hr.srtt_nonneg
  have hs' := hr.srtt_lt
  have hv := hr.rttvar_nonneg
  unfold RttState.average
  split
  · rename_i hne
    have hv' := hr.rttvar_le_of_ne hne
    have hdelta : int16 (rtt - r.timer.srtt / 2 ^ 3) = rtt - r.timer.srtt / 2 ^ 3 :=
      int16_of_mem (by omega) (by omega)
    have hsrtt : int32 (r.timer.srtt + (rtt - r.timer.srtt / 2 ^ 3)) =
        r.timer.srtt + (rtt - r.timer.srtt / 2 ^ 3) := int32_of_mem (by omega) (by omega)
    have habs : (if rtt - r.timer.srtt / 2 ^ 3 < 0 then int16 (-(rtt - r.timer.srtt / 2 ^ 3))
        else rtt - r.timer.srtt / 2 ^ 3) = |rtt - r.timer.srtt / 2 ^ 3| := by
      split
      · rw [int16_of_mem (by omega) (by omega), abs_of_neg ‹_›]
      · rw [abs_of_nonneg (by omega)]
    have hle : |rtt - r.timer.srtt / 2 ^ 3| ≤ 32767 := by
      rw [abs_le]
      omega
    have hnonneg := abs_nonneg (rtt - r.timer.srtt / 2 ^ 3)
    simp only [hdelta, hsrtt, habs]
    generalize |rtt - r.timer.srtt / 2 ^ 3| = d at hle hnonneg
    rw [int16_of_mem (by omega) (by omega), int32_of_mem (by omega) (by omega)]
    refine ⟨?_, ?_, ?_, ?_⟩ <;> split <;> omega
  · simp only
    rw [int32_of_mem (by omega) (by omega), int32_of_mem (by omega) (by omega)]
    omega

theorem rtxcur_nonneg {now tao : ℚ} (hr : InRange p r) (h : RttState.sample p now tao < 2 ^ 15) :
    0 ≤ (r.timer.rttUpdate p now tao).rtxcur := by
  obtain ⟨h₁, h₂, h₃, h₄⟩ := average_mem hr (one_le_sample now tao) h
  have hexp : (2 : ℤ) ^ (p.rttvarExp + (3 - 2)) ≤ 2 ^ 13 :=
    pow_le_pow_right₀ (by norm_num) (by have := p.rttvarExp_le; omega)
  have hpos : (0 : ℤ) < 2 ^ (p.rttvarExp + (3 - 2)) := by positivity
  simp only [RttState.rttUpdate]
  generalize (r.timer.average (RttState.sample p now tao)).rttvar = v at *
  generalize (2 : ℤ) ^ (p.rttvarExp + (3 - 2)) = q at *
  have hprod : v * q ≤ 131071 * 2 ^ 13 := mul_le_mul h₄ hexp hpos.le (by norm_num)
  have hprod₀ : 0 ≤ v * q := (mul_pos h₃ hpos).le
  rw [int32_of_mem hprod₀ (by omega), int32_of_mem (by omega) (by omega)]
  refine mul_nonneg (Int.cast_nonneg ?_) p.tcpTick_pos.le
  omega

/-- The timeout in its bounds. -/
def boundedTimeout (p : RttParams) (s : RttState) : ℚ :=
  max (min (s.rawTimeout p) p.maxrto) (2 * p.tcpTick)

theorem rawTimeout_nonneg (hx : 0 ≤ s.rtxcur) (hb : 0 < s.backoff) : 0 ≤ s.rawTimeout p := by
  have hb' : (0 : ℚ) ≤ s.backoff := by exact_mod_cast hb.le
  have hprod := mul_nonneg hx hb'
  unfold RttState.rawTimeout
  split_ifs
  · exact mul_nonneg p.minrto_pos.le hb'
  · exact hprod
  · exact p.minrto_pos.le
  · exact hprod

theorem rttTimeout_eq (hx : 0 ≤ s.rtxcur) (hb : 0 < s.backoff) (hu : s.useRtt = false) :
    s.rttTimeout p = some ({ s with useRtt := false }, boundedTimeout p s) := by
  have h₀ := rawTimeout_nonneg (p := p) hx hb
  have hmax : (if s.rawTimeout p > p.maxrto then p.maxrto else s.rawTimeout p) =
      min (s.rawTimeout p) p.maxrto := by
    rw [min_def]
    split_ifs <;> first | rfl | linarith
  have hle := p.tick_le
  have htick := p.tcpTick_pos
  have h₁ : 0 ≤ min (s.rawTimeout p) p.maxrto := le_min h₀ (by linarith)
  simp only [RttState.rttTimeout, hmax, hu, boundedTimeout]
  split_ifs with h h'
  · exact absurd h' (not_lt.2 h₁)
  · simp_all
  · rw [max_eq_right h.le]
  · rw [max_eq_left (not_lt.1 h)]

theorem boundedTimeout_mem : 2 * p.tcpTick ≤ boundedTimeout p s ∧ boundedTimeout p s ≤ p.maxrto :=
  ⟨le_max_right _ _, max_le (min_le_right _ _) p.tick_le⟩

/-- A larger multiplier gives no shorter timeout. -/
theorem boundedTimeout_mono {s' : RttState} (hx : 0 ≤ s.rtxcur) (hx' : s'.rtxcur = s.rtxcur)
    (hu : s'.useRtt = s.useRtt) (hb : s.backoff ≤ s'.backoff) :
    boundedTimeout p s ≤ boundedTimeout p s' := by
  have hb' : (s.backoff : ℚ) ≤ s'.backoff := by exact_mod_cast hb
  have hprod := mul_le_mul_of_nonneg_left hb' hx
  have hmin := mul_le_mul_of_nonneg_left hb' p.minrto_pos.le
  refine max_le_max_right _ (min_le_min_right _ ?_)
  unfold RttState.rawTimeout
  rw [hx', hu]
  split_ifs <;> linarith

theorem inRange_init : InRange p (init p) := by
  obtain ⟨h₁, h₂⟩ := p.srttInit_mem
  obtain ⟨h₃, h₄⟩ := p.rttvarInit_mem
  have hsrtt : (init p).timer.srtt = truncate (p.srttInit / p.tcpTick) * 2 ^ 3 :=
    int32_of_mem (by omega) (by omega)
  have hrttvar : (init p).timer.rttvar = truncate (p.rttvarInit / p.tcpTick) * 2 ^ 2 :=
    int32_of_mem (by omega) (by omega)
  constructor
  · omega
  · omega
  · omega
  · omega
  · intro
    omega
  · exact p.rtxcurInit_nonneg
  · exact Int.one_pos
  · exact (by norm_num : (1 : ℤ) < 2 ^ 31)
  · rfl
  · intro l hl
    cases hl

theorem timer_rttTimeout (hr : InRange p r) : r.timer.rttTimeout p = some (r.timer, boundedTimeout p r.timer) := by
  rw [rttTimeout_eq hr.rtxcur hr.backoff_pos hr.useRtt, ← hr.useRtt]

theorem le_boundedTimeout (hr : InRange p r) {l : ℚ} (hl : l ∈ r.last) : l ≤ boundedTimeout p r.timer :=
  hr.last l hl _ (timer_rttTimeout hr)

theorem inRange_update {now tao : ℚ} (hr : InRange p r) (h : RttState.sample p now tao < 2 ^ 15) :
    InRange p ⟨r.timer.rttUpdate p now tao, none⟩ := by
  obtain ⟨h₁, h₂, h₃, h₄⟩ := average_mem hr (one_le_sample now tao) h
  have hkeep : (r.timer.rttUpdate p now tao).backoff = r.timer.backoff ∧
      (r.timer.rttUpdate p now tao).useRtt = r.timer.useRtt := by
    simp only [RttState.rttUpdate, RttState.average]
    split <;> exact ⟨rfl, rfl⟩
  constructor
  · exact h₁.le
  · exact h₂
  · exact h₃.le
  · exact h₄.trans (by norm_num)
  · exact fun _ => h₄
  · exact rtxcur_nonneg hr h
  · exact hkeep.1 ▸ hr.backoff_pos
  · exact hkeep.1 ▸ hr.backoff_lt
  · exact hkeep.2.trans hr.useRtt
  · intro l hl
    cases hl

theorem rttBackoff_backoff : (s.rttBackoff p).backoff =
    if s.backoff < 64 ∨ p.rfc2988 then int32 (s.backoff * 2) else s.backoff := by
  simp only [RttState.rttBackoff]
  split_ifs <;> rfl

theorem rttBackoff_rtxcur : (s.rttBackoff p).rtxcur = s.rtxcur ∧ (s.rttBackoff p).useRtt = s.useRtt := by
  simp only [RttState.rttBackoff]
  split_ifs <;> exact ⟨rfl, rfl⟩

section

variable (hr : InRange p r)
include hr

/-- The multiplier grows exactly when it can be doubled. -/
theorem rttBackoff_pos_iff :
    0 < (r.timer.rttBackoff p).backoff ↔ CanDouble p r .backoff := by
  have hpos := hr.backoff_pos
  have hlt := hr.backoff_lt
  simp only [rttBackoff_backoff, CanDouble, true_imp_iff]
  by_cases hc : r.timer.backoff < 2 ^ 30
  · rw [int32_of_mem (by omega) (by omega)]
    simp only [hc, imp_true_iff, iff_true]
    split <;> omega
  · have hneg : int32 (r.timer.backoff * 2) ≤ 0 := by
      unfold int32
      rw [Int.bmod_def]
      omega
    cases p.rfc2988
    · simp only [Bool.false_eq_true, or_false, false_imp_iff, iff_true]
      split <;> omega
    · simp only [or_true, if_true, true_imp_iff, hc, iff_false]
      omega

theorem inRange_backoff (h : CanDouble p r .backoff) :
    InRange p ⟨r.timer.rttBackoff p, r.last⟩ := by
  have hpos := (rttBackoff_pos_iff hr).2 h
  have hbpos := hr.backoff_pos
  have hs := hr.srtt_nonneg
  have hs' := hr.srtt_lt
  have hv := hr.rttvar_nonneg
  have hv' := hr.rttvar_le
  have hv'' := hr.rttvar_le_of_ne
  obtain ⟨hx, hu⟩ := rttBackoff_rtxcur (p := p) (s := r.timer)
  have hgrows : r.timer.backoff ≤ (r.timer.rttBackoff p).backoff ∧
      (r.timer.rttBackoff p).backoff < 2 ^ 31 := by
    rw [rttBackoff_backoff] at hpos ⊢
    have hlt := hr.backoff_lt
    by_cases hc : r.timer.backoff < 2 ^ 30
    · rw [int32_of_mem (by omega) (by omega)]
      split <;> omega
    · have hoff : ¬(r.timer.backoff < 64 ∨ p.rfc2988) := by
        rintro (h64 | hrfc)
        · omega
        · exact hc (h rfl hrfc)
      rw [if_neg hoff]
      omega
  have hmem : 0 ≤ (r.timer.rttBackoff p).srtt ∧ (r.timer.rttBackoff p).srtt < 2 ^ 18 ∧
      0 ≤ (r.timer.rttBackoff p).rttvar ∧ (r.timer.rttBackoff p).rttvar ≤ 131071 + 32767 ∧
      ((r.timer.rttBackoff p).srtt ≠ 0 → (r.timer.rttBackoff p).rttvar ≤ 131071) := by
    simp only [RttState.rttBackoff]
    generalize (if r.timer.backoff < 64 ∨ p.rfc2988 then _ else _ : ℤ) = b
    split
    · simp only
      rw [int32_of_mem (by omega) (by omega)]
      omega
    · exact ⟨hs, hs', hv, hv', hv''⟩
  constructor
  · exact hmem.1
  · exact hmem.2.1
  · exact hmem.2.2.1
  · exact hmem.2.2.2.1
  · exact hmem.2.2.2.2
  · exact hx ▸ hr.rtxcur
  · exact hpos
  · exact hgrows.2
  · exact hu.trans hr.useRtt
  · intro l hl t ht
    rw [rttTimeout_eq (hx ▸ hr.rtxcur) hpos (hu.trans hr.useRtt)] at ht
    obtain rfl := Option.some.inj ht
    exact (le_boundedTimeout hr hl).trans (boundedTimeout_mono hr.rtxcur hx hu hgrows.1)

theorem inRange_reset : InRange p ⟨{ r.timer with backoff := 1 }, none⟩ :=
  { hr with
    backoff_pos := Int.one_pos
    backoff_lt := (by norm_num : (1 : ℤ) < 2 ^ 31)
    last := fun l hl => by cases hl }

theorem inRange_timeout : InRange p ⟨r.timer, some (boundedTimeout p r.timer)⟩ :=
  { hr with
    last := fun l hl t ht => by
      obtain rfl := Option.some.inj hl
      rw [timer_rttTimeout hr] at ht
      obtain rfl := Option.some.inj ht
      exact le_rfl }

theorem valid_iff (he : SmallSample p e) : Valid p r e ↔ CanDouble p r e := by
  cases e with
  | update now tao =>
    have h := inRange_update hr he
    exact iff_of_true ⟨_, _, rfl, h.backoff_pos, h.rtxcur, by simp⟩ (fun h => nomatch h)
  | backoff =>
    rw [← rttBackoff_pos_iff hr]
    constructor
    · rintro ⟨r', a, hstep, hpos, -⟩
      obtain ⟨rfl, -⟩ := Prod.mk.inj (Option.some.inj hstep)
      exact hpos
    · intro hpos
      exact ⟨_, _, rfl, hpos, rttBackoff_rtxcur.1.symm ▸ hr.rtxcur, by simp⟩
  | reset =>
    have h := inRange_reset hr
    exact iff_of_true ⟨_, _, rfl, h.backoff_pos, h.rtxcur, by simp⟩ (fun h => nomatch h)
  | timeout =>
    refine iff_of_true ⟨⟨r.timer, some (boundedTimeout p r.timer)⟩, some (boundedTimeout p r.timer), ?_,
      hr.backoff_pos, hr.rtxcur, fun t ht => ?_⟩ (fun h => nomatch h)
    · simp only [rttTimer, timer_rttTimeout hr, Option.map_some]
    · obtain rfl := Option.some.inj ht
      exact ⟨boundedTimeout_mem.1, boundedTimeout_mem.2, fun l hl => le_boundedTimeout hr hl⟩

theorem inRange_step {r' : RttRun} {a : Option ℚ} (he : SmallSample p e)
    (h : CanDouble p r e) (hstep : (rttTimer p).step r e = some (r', a)) : InRange p r' := by
  cases e with
  | update now tao =>
    obtain ⟨rfl, -⟩ := Prod.mk.inj (Option.some.inj hstep)
    exact inRange_update hr he
  | backoff =>
    obtain ⟨rfl, -⟩ := Prod.mk.inj (Option.some.inj hstep)
    exact inRange_backoff hr h
  | reset =>
    obtain ⟨rfl, -⟩ := Prod.mk.inj (Option.some.inj hstep)
    exact inRange_reset hr
  | timeout =>
    simp only [rttTimer, timer_rttTimeout hr, Option.map_some] at hstep
    obtain ⟨rfl, -⟩ := Prod.mk.inj (Option.some.inj hstep)
    exact inRange_timeout hr

end

/-- With `rfc2988_` every backoff doubles the multiplier. -/
theorem exists_run_backoffs (p : RttParams) (hp : p.rfc2988 = true) (n : ℕ) (hn : n ≤ 30) :
    ∃ r as, (rttTimer p).run (init p) (List.replicate n .backoff) = some (r, as) ∧
      r.timer.backoff = 2 ^ n := by
  induction n with
  | zero => exact ⟨init p, [], rfl, rfl⟩
  | succ n ih =>
    obtain ⟨r, as, hrun, hbackoff⟩ := ih (by omega)
    refine ⟨⟨r.timer.rttBackoff p, r.last⟩, as ++ [none], ?_, ?_⟩
    · rw [List.replicate_succ', Machine.run_append _ _ hrun]
      rfl
    · have hle : (2 : ℤ) ^ n ≤ 2 ^ 29 := pow_le_pow_right₀ (by norm_num) (by omega)
      have hpos : (0 : ℤ) < 2 ^ n := by positivity
      rw [rttBackoff_backoff, if_pos (Or.inr hp), hbackoff, pow_succ, int32_of_mem (by omega) (by omega)]

end

/-- A run of the timer is right throughout exactly when no backoff finds a multiplier that an `int`
cannot double. -/
theorem rttTimer_valid_iff (p : RttParams) (es : List RttEvent) (hes : ∀ e ∈ es, SmallSample p e) :
    (rttTimer p).RunsWith (Valid p) (init p) es ↔ (rttTimer p).RunsWith (CanDouble p) (init p) es := by
  have hsmall : (rttTimer p).RunsWith (fun _ e => SmallSample p e) (init p) es :=
    Machine.runsWith_of_forall _ (fun e he _ => hes e he) _
  refine hsmall.congr (I := InRange p) (fun r e hr he => valid_iff hr he) ?_ inRange_init
  intro r e r' a hr he hv hstep
  exact inRange_step hr he ((valid_iff hr he).1 hv) hstep

/-- The defaults, with a tick of 0.01 s. -/
def defaultRtt : RttParams where
  tcpTick := 1 / 100
  minrto := 1 / 5
  maxrto := 60
  srttInit := 0
  rttvarInit := 12
  rtxcurInit := 3
  rttvarExp := 2
  rfc2988 := true
  tsOption := false
  bootTime := 0
  tcpTick_pos := by norm_num
  minrto_pos := by norm_num
  minrto_le := by norm_num
  tick_le := by norm_num
  srttInit_mem := by norm_num [truncate]
  rttvarInit_mem := by norm_num [truncate]
  rtxcurInit_nonneg := by norm_num
  rttvarExp_le := by norm_num

theorem rttTimer_valid_default :
    (rttTimer defaultRtt).RunsWith (Valid defaultRtt) (init defaultRtt) [.timeout, .backoff, .timeout] ↔
      (rttTimer defaultRtt).RunsWith (CanDouble defaultRtt) (init defaultRtt)
        [.timeout, .backoff, .timeout] := by
  refine rttTimer_valid_iff _ _ fun e he => ?_
  simp only [List.mem_cons, List.not_mem_nil, or_false] at he
  rcases he with rfl | rfl | rfl <;> trivial

/-- The 31st backoff in a row makes the multiplier negative. -/
theorem not_rttTimer_valid : ¬∀ p es, (∀ e ∈ es, SmallSample p e) →
    (rttTimer p).RunsWith (Valid p) (init p) es := by
  intro h
  have hsmall : ∀ e ∈ List.replicate 31 RttEvent.backoff, SmallSample defaultRtt e := fun e he => by
    rw [List.eq_of_mem_replicate he]
    trivial
  have hvalid := h defaultRtt (List.replicate 30 .backoff ++ [.backoff]) hsmall
  obtain ⟨r, as, hrun, hbackoff⟩ := exists_run_backoffs defaultRtt rfl 30 le_rfl
  obtain ⟨r', a, hstep, hpos, -⟩ := (hvalid.append.2 r as hrun).1
  obtain ⟨rfl, -⟩ := Prod.mk.inj (Option.some.inj hstep)
  rw [rttBackoff_backoff, hbackoff] at hpos
  revert hpos
  decide

end Ns2
