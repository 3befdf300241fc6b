import Ns2.Mac.Mac80211

/-! The sequence numbers of the data frames: stations in ad-hoc mode that number what they send, and look
up the copies they receive in their caches. -/

namespace Ns2

open List Option Function

/-- A data frame: `number` counts what its sender has sent, from 1, and `scontrol` is `dh_scontrol`. -/
structure DataFrame where
  ra : ℕ
  ta : ℕ
  number : ℕ
  scontrol : ℕ
deriving DecidableEq

/-- The counters and caches of all stations, the frames they have sent, and the copies that have got as
far as a cache, the last one first. -/
structure Airwaves where
  staSeqno : ℕ → ℕ
  cache : ℕ → ℕ → ℕ
  frames : List DataFrame
  reached : List DataFrame

/-- Station `ta` sends to `ra`; a copy gets as far as the cache of its receiver. -/
inductive AirEvent where
  | send (ta ra : ℕ)
  | reach (f : DataFrame)

namespace Airwaves

variable (s : Airwaves)

def init : Airwaves where
  staSeqno := fun _ => 1
  cache := fun _ _ => 0
  frames := []
  reached := []

/-- The frames that a station has sent, to whomever. -/
def count (ta : ℕ) : ℕ := s.frames.countP fun f => f.ta = ta

/-- `dh_scontrol = sta_seqno_++`. -/
def send (ta ra : ℕ) : Airwaves :=
  { s with
    staSeqno := Function.update s.staSeqno ta ((s.staSeqno ta + 1) % 65536)
    frames := ⟨ra, ta, s.count ta + 1, s.staSeqno ta⟩ :: s.frames }

/-- The test of `recvDATA`. -/
def isDuplicate (f : DataFrame) : Bool := s.cache f.ra f.ta ≠ 0 && s.cache f.ra f.ta = f.scontrol

/-- A copy that is no duplicate is passed up. -/
def reach (f : DataFrame) : Airwaves × Bool :=
  if s.isDuplicate f then ({ s with reached := f :: s.reached }, false)
  else ({ s with
    cache := Function.update s.cache f.ra (Function.update (s.cache f.ra) f.ta f.scontrol)
    reached := f :: s.reached }, true)

/-- The last frame of a sender that has got as far as the cache of a receiver. -/
def lastReached (ta ra : ℕ) : Option DataFrame := s.reached.find? fun f => f.ta = ta && f.ra = ra

end Airwaves

def airwaves : Machine Airwaves AirEvent Bool where
  step s
    | .send ta ra => some (s.send ta ra, false)
    | .reach f => some (s.reach f)

namespace Airwaves

/-- A copy is one of a unicast frame that has been sent, and none of a later frame came before it. -/
def InOrder (s : Airwaves) : AirEvent → Prop
  | .send _ _ => True
  | .reach f => f ∈ s.frames ∧ f.ra ≠ macBroadcast ∧
    ∀ g ∈ s.reached, g.ta = f.ta → g.ra = f.ra → g.number ≤ f.number

/-- The first copy of a frame is passed up, and no further one. -/
def PassedOnce (s : Airwaves) : AirEvent → Prop
  | .send _ _ => True
  | .reach f => (s.reach f).2 = true ↔ f ∉ s.reached

/-- No further copy has the number 0, and no frame has the number of the frame before it unless both are
0, in 16 bits. -/
def Distinct (s : Airwaves) : AirEvent → Prop
  | .send _ _ => True
  | .reach f => ∀ g ∈ s.lastReached f.ta f.ra,
    (f = g → f.number % 65536 ≠ 0) ∧ (f ≠ g → f.number % 65536 = g.number % 65536 → f.number % 65536 = 0)

instance (s : Airwaves) : ∀ e, Decidable (InOrder s e)
  | .send _ _ => isTrue trivial
  | .reach f => inferInstanceAs (Decidable (f ∈ s.frames ∧ f.ra ≠ macBroadcast ∧
      ∀ g ∈ s.reached, g.ta = f.ta → g.ra = f.ra → g.number ≤ f.number))

/-- The frames are numbered, and each entry of a cache is the number of the last frame that reached it. -/
structure Numbered (s : Airwaves) : Prop where
  staSeqno : ∀ ta, s.staSeqno ta = (s.count ta + 1) % 65536
  scontrol : ∀ f ∈ s.frames, f.scontrol = f.number % 65536
  le_count : ∀ f ∈ s.frames, f.number ≤ s.count f.ta
  unique : ∀ f ∈ s.frames, ∀ g ∈ s.frames, f.ta = g.ta → f.number = g.number → f = g
  sent : ∀ f ∈ s.reached, f ∈ s.frames
  cache : ∀ ra ta, s.cache ra ta = ((s.lastReached ta ra).map DataFrame.scontrol).getD 0
  last : ∀ f ∈ s.reached, ∀ g ∈ s.lastReached f.ta f.ra, f.number ≤ g.number

theorem numbered_init : Numbered init where
  staSeqno _ := rfl
  scontrol _ hf := absurd hf not_mem_nil
  le_count _ hf := absurd hf not_mem_nil
  unique _ hf := absurd hf not_mem_nil
  sent _ hf := absurd hf not_mem_nil
  cache _ _ := rfl
  last _ hf := absurd hf not_mem_nil

section

variable {s : Airwaves} {f g : DataFrame} {ta ra ta' ra' : ℕ}

theorem count_send : (s.send ta ra).count ta' = s.count ta' + if ta = ta' then 1 else 0 := by
  simp [count, send, countP_cons]

theorem lastReached_reach : (s.reach f).1.lastReached ta ra =
    if f.ta = ta ∧ f.ra = ra then some f else s.lastReached ta ra := by
  have h : (s.reach f).1.reached = f :: s.reached := by
    unfold reach
    split <;> rfl
  by_cases hp : f.ta = ta ∧ f.ra = ra <;> simp [lastReached, h, hp]

theorem mem_of_lastReached (h : g ∈ s.lastReached ta ra) : g ∈ s.reached ∧ g.ta = ta ∧ g.ra = ra := by
  refine ⟨mem_of_find?_eq_some h, ?_⟩
  simpa using find?_some h

theorem exists_lastReached (h : f ∈ s.reached) : ∃ g, g ∈ s.lastReached f.ta f.ra := by
  refine isSome_iff_exists.1 (find?_isSome.2 ⟨f, h, ?_⟩)
  simp

theorem Numbered.send (hs : Numbered s) (ta ra : ℕ) : Numbered (s.send ta ra) where
  staSeqno ta' := by
    have h := hs.staSeqno ta'
    rw [count_send]
    by_cases heq : ta' = ta
    · subst heq
      simp only [Airwaves.send, update_self, if_true]
      omega
    · simpa only [Airwaves.send, update_of_ne heq, if_neg (Ne.symm heq)] using h
  scontrol f hf := by
    rcases mem_cons.1 hf with rfl | hf
    · exact hs.staSeqno ta
    · exact hs.scontrol f hf
  le_count f hf := by
    rw [count_send]
    rcases mem_cons.1 hf with rfl | hf
    · simp
    · have := hs.le_count f hf
      omega
  unique f hf g hg hta hnum := by
    rcases mem_cons.1 hf with rfl | hf <;> rcases mem_cons.1 hg with rfl | hg
    · rfl
    · have := hs.le_count g hg
      simp only at hta hnum
      rw [← hta] at this
      omega
    · have := hs.le_count f hf
      simp only at hta hnum
      rw [hta] at this
      omega
    · exact hs.unique f hf g hg hta hnum
  sent f hf := mem_cons_of_mem _ (hs.sent f hf)
  cache := hs.cache
  last := hs.last

theorem Numbered.reach (hs : Numbered s) (hf : InOrder s (.reach f)) : Numbered (s.reach f).1 := by
  obtain ⟨hmem, -, hle⟩ := hf
  have hreached : (s.reach f).1.reached = f :: s.reached := by
    unfold Airwaves.reach
    split <;> rfl
  have hframes : (s.reach f).1.frames = s.frames := by
    unfold Airwaves.reach
    split <;> rfl
  have hseqno : (s.reach f).1.staSeqno = s.staSeqno := by
    unfold Airwaves.reach
    split <;> rfl
  have hcount : ∀ ta, (s.reach f).1.count ta = s.count ta := fun ta => by rw [count, hframes, count]
  constructor
  · intro ta
    rw [hseqno, hcount, hs.staSeqno ta]
  · rw [hframes]
    exact hs.scontrol
  · rw [hframes]
    intro g hg
    rw [hcount]
    exact hs.le_count g hg
  · rw [hframes]
    exact hs.unique
  · rw [hframes, hreached]
    exact forall_mem_cons.2 ⟨hmem, hs.sent⟩
  · intro ra ta
    rw [lastReached_reach]
    have hold := hs.cache ra ta
    unfold Airwaves.reach
    split_ifs with hdup heq heq
    · obtain ⟨rfl, rfl⟩ := heq
      simp only [isDuplicate, Bool.and_eq_true, decide_eq_true_eq] at hdup
      exact hdup.2
    · exact hold
    · obtain ⟨rfl, rfl⟩ := heq
      simp
    · by_cases hra : ra = f.ra
      · subst hra
        have hta : ta ≠ f.ta := fun h => heq ⟨h.symm, rfl⟩
        simpa [update_of_ne hta] using hold
      · simpa [update_of_ne hra] using hold
  · intro g hg g' hg'
    rw [lastReached_reach] at hg'
    rw [hreached] at hg
    split_ifs at hg' with heq
    · obtain rfl : f = g' := Option.some.inj hg'
      rcases mem_cons.1 hg with rfl | hg
      · exact le_rfl
      · exact hle g hg heq.1.symm heq.2.symm
    · rcases mem_cons.1 hg with rfl | hg
      · exact absurd ⟨rfl, rfl⟩ heq
      · exact hs.last g hg g' hg'

theorem exists_run_sends (n : ℕ) : ∃ s as, airwaves.run init (replicate n (.send 0 1)) = some (s, as) ∧
    s.cache = init.cache ∧ s.reached = [] ∧ s.count 0 = n ∧ s.staSeqno 0 = (n + 1) % 65536 ∧
      (0 < n → ⟨1, 0, n, n % 65536⟩ ∈ s.frames) := by
  induction n with
  | zero => exact ⟨init, [], rfl, rfl, rfl, rfl, rfl, fun h => absurd h (by omega)⟩
  | succ n ih =>
    obtain ⟨s, as, hrun, hcache, hreached, hcount, hseqno, -⟩ := ih
    refine ⟨s.send 0 1, as ++ [false], ?_, hcache, hreached, ?_, ?_, fun _ => ?_⟩
    · rw [replicate_succ', Machine.run_append _ _ hrun]
      rfl
    · rw [count_send, hcount, if_pos rfl]
    · simp only [Airwaves.send, update_self, hseqno]
      omega
    · rw [Airwaves.send, hcount, hseqno]
      exact mem_cons_self

theorem Numbered.step {e : AirEvent} {s' : Airwaves} {b : Bool} (hs : Numbered s) (he : InOrder s e)
    (hstep : airwaves.step s e = some (s', b)) : Numbered s' := by
  rcases e with ⟨ta, ra⟩ | f
  · obtain ⟨rfl, -⟩ := Prod.mk.inj (Option.some.inj hstep)
    exact hs.send ta ra
  · obtain ⟨rfl, -⟩ : (s.reach f).1 = s' ∧ (s.reach f).2 = b := Prod.mk.inj (Option.some.inj hstep)
    exact hs.reach he

theorem mem_reached_iff (hs : Numbered s) (hf : InOrder s (.reach f)) (hg : g ∈ s.lastReached f.ta f.ra) :
    f ∈ s.reached ↔ f = g := by
  obtain ⟨hmem, hta, hra⟩ := mem_of_lastReached hg
  refine ⟨fun h => ?_, fun h => h ▸ hmem⟩
  have h₁ := hs.last f h g hg
  have h₂ := hf.2.2 g hmem hta hra
  exact hs.unique f hf.1 g (hs.sent g hmem) hta.symm (by omega)

theorem passedOnce_iff_distinct {e : AirEvent} (hs : Numbered s) (he : InOrder s e) :
    PassedOnce s e ↔ Distinct s e := by
  rcases e with ⟨ta, ra⟩ | f
  · exact Iff.rfl
  have hsnd : (s.reach f).2 = !s.isDuplicate f := by
    unfold Airwaves.reach
    split <;> simp_all
  have hcache := hs.cache f.ra f.ta
  simp only [PassedOnce, Distinct, hsnd, Bool.not_eq_true', isDuplicate]
  rcases hg : s.lastReached f.ta f.ra with _ | g
  · have hnot : f ∉ s.reached := fun h => by
      obtain ⟨g, hg'⟩ := exists_lastReached h
      simp [hg] at hg'
    rw [hg] at hcache
    simp [hcache, hnot]
  · have hiff := mem_reached_iff hs he hg
    have hgs := hs.scontrol g (hs.sent g (mem_of_lastReached hg).1)
    have hfs := hs.scontrol f he.1
    rw [hg, map_some, getD_some, hgs] at hcache
    rw [hcache, hfs, hiff]
    by_cases heq : f = g
    · subst heq
      simp
    · simp only [heq, not_false_eq_true, iff_true, false_imp_iff, true_and, true_imp_iff, ne_eq,
        mem_def, Option.some.injEq, forall_eq', Bool.and_eq_false_iff, decide_eq_false_iff_not,
        not_not]
      omega

end

end Airwaves

namespace Mac80211

variable {st : Station} {i : MacInput} {s s' : Mac80211}

theorem of_asserting {α : Type*} {P : Prop} [Decidable P] {k : Option α} {x : α}
    (h : asserting P k = some x) : P ∧ k = some x := by
  by_cases hP : P
  · exact ⟨hP, (asserting_pos hP k).symm.trans h⟩
  · rw [asserting_neg hP] at h
    cases h

theorem startBackoff_inv {difs : ℚ} (h : startBackoff st i difs s = some s') :
    ∃ b, s' = { s with mhBackoff := b } := by
  obtain ⟨b, -, h⟩ := bind_eq_some_iff.1 h
  exact ⟨b, (Option.some.inj h).symm⟩

theorem waitDifs_inv (h : waitDifs st i s = some s') : ∃ b, s' = { s with mhBackoff := b } := by
  unfold waitDifs at h
  split_ifs at h
  · exact startBackoff_inv h
  · exact ⟨s.mhBackoff, (Option.some.inj h).symm⟩
  · exact startBackoff_inv h
  · exact ⟨s.mhBackoff, (Option.some.inj h).symm⟩

theorem sendRTS_inv {dst : ℕ} (h : sendRTS st dst s = some s') : ∃ r, s' = { s with pktRTS := r } := by
  unfold sendRTS at h
  split at h
  · cases h
  · obtain ⟨-, h⟩ := of_asserting h
    split_ifs at h
    · exact ⟨s.pktRTS, (Option.some.inj h).symm⟩
    · exact ⟨_, (Option.some.inj h).symm⟩

/-- `send` numbers its frame as `Airwaves.send` does. -/
theorem send_numbers {m : Msdu} (h : send st i m s = some s') :
    s'.pktTx = some { dataPacket st m with scontrol := s.staSeqno } ∧
      s'.staSeqno = (s.staSeqno + 1) % 65536 ∧ s'.cache = s.cache := by
  obtain ⟨s₁, h₁, h⟩ := bind_eq_some_iff.1 h
  obtain ⟨-, h₁⟩ := of_asserting h₁
  obtain rfl := Option.some.inj h₁
  obtain ⟨s₂, h₂, h⟩ := bind_eq_some_iff.1 h
  obtain ⟨r, rfl⟩ := sendRTS_inv h₂
  obtain ⟨b, rfl⟩ := waitDifs_inv h
  exact ⟨rfl, rfl, rfl⟩

/-- A retransmission has the number of the frame. -/
theorem retransmitDATA_scontrol (h : retransmitDATA st i s = some s') :
    (∀ p' ∈ s'.pktTx, ∃ p ∈ s.pktTx, p'.scontrol = p.scontrol) ∧ s'.staSeqno = s.staSeqno ∧
      s'.cache = s.cache := by
  obtain ⟨-, h⟩ := of_asserting h
  split at h
  · cases h
  · rename_i p hp
    obtain ⟨-, h⟩ := of_asserting h
    split_ifs at h
    · obtain ⟨b, rfl⟩ := startBackoff_inv h
      simp [rstCw]
    all_goals
      unfold retryDATA at h
      split_ifs at h
      · obtain rfl := Option.some.inj h
        simp [rstCw]
      · obtain ⟨s₁, h₁, h⟩ := bind_eq_some_iff.1 h
        obtain ⟨r, rfl⟩ := sendRTS_inv h₁
        obtain ⟨b, rfl⟩ := startBackoff_inv h
        simp [incCw, hp]

/-- The cache of a station is tested and changed as `Airwaves.reach` does. -/
theorem checkSeqno_eq {p : MacPacket} {air : Airwaves} (hra : p.ra ≠ macBroadcast)
    (hta : p.ta < st.cacheNodeCount) (hcache : air.cache p.ra = s.cache) (number : ℕ) :
    checkSeqno st i p s =
      let r := air.reach ⟨p.ra, p.ta, number, p.scontrol⟩
      (if r.2 then deliver st i else some) { s with cache := r.1.cache p.ra } := by
  by_cases h : s.cache p.ta ≠ 0 ∧ s.cache p.ta = p.scontrol
  · have hdup : air.isDuplicate ⟨p.ra, p.ta, number, p.scontrol⟩ = true := by
      simpa [Airwaves.isDuplicate, hcache] using h
    rw [checkSeqno, if_pos ⟨hra, hta⟩, if_pos h]
    simp [Airwaves.reach, hdup, hcache]
  · have hdup : air.isDuplicate ⟨p.ra, p.ta, number, p.scontrol⟩ = false := by
      simpa [Airwaves.isDuplicate, hcache] using h
    simp [checkSeqno, Airwaves.reach, hdup, h, hra, hta, hcache]

end Mac80211

open Airwaves

/-- In every run each frame is passed up once, and no further copy, exactly when the numbers can tell the
copies apart. -/
theorem passedOnce_iff (es : List AirEvent) (hes : airwaves.RunsWith InOrder init es) :
    airwaves.RunsWith PassedOnce init es ↔ airwaves.RunsWith Distinct init es := by
  refine hes.congr (I := Numbered) (fun s e hs he => passedOnce_iff_distinct hs he) ?_ numbered_init
  intro s e s' b hs he _ hstep
  exact hs.step he hstep

/-- The sequence number 0 is no number in the cache: every copy of the frame is passed up. -/
theorem not_passedOnce : ¬∀ es, airwaves.RunsWith InOrder init es →
    airwaves.RunsWith PassedOnce init es := by
  intro h
  obtain ⟨s, as, hrun, hcache, hreached, -, -, hsent⟩ := exists_run_sends 65536
  have hmem := hsent (by omega)
  generalize hn : (⟨1, 0, 65536, 65536 % 65536⟩ : DataFrame) = f at hmem
  have hzero : s.cache f.ra f.ta = 0 := by rw [hcache]; rfl
  have hdup : s.isDuplicate f = false := by simp [isDuplicate, hzero]
  have hsends : airwaves.RunsWith InOrder init (replicate 65536 (.send 0 1)) :=
    Machine.runsWith_of_forall _ (fun e he s => by rw [eq_of_mem_replicate he]; trivial) _
  have horder : airwaves.RunsWith InOrder s [.reach f, .reach f] := by
    refine ⟨⟨hmem, by rw [← hn]; decide, by simp [hreached]⟩, fun s' a hstep => ?_⟩
    obtain ⟨rfl, -⟩ : (s.reach f).1 = s' ∧ _ := Prod.mk.inj (Option.some.inj hstep)
    refine ⟨⟨?_, by rw [← hn]; decide, ?_⟩, fun _ _ _ => trivial⟩
    · simpa [Airwaves.reach, hdup] using hmem
    · simp [Airwaves.reach, hdup, hreached]
  have hright := h _ ((Machine.runsWith_append_iff hrun).2 ⟨hsends, horder⟩)
  have hlast := (((Machine.runsWith_append_iff hrun).1 hright).2.2 (s.reach f).1 (s.reach f).2 rfl).1
  simp only [PassedOnce, Airwaves.reach, hdup] at hlast
  revert hlast
  rw [← hn]
  simp [isDuplicate]

def twoFrames : List AirEvent :=
  [.send 0 1, .reach ⟨1, 0, 1, 1⟩, .send 0 2, .send 0 1, .reach ⟨1, 0, 1, 1⟩, .reach ⟨1, 0, 3, 3⟩]

theorem passedOnce_two_frames :
    airwaves.RunsWith PassedOnce init twoFrames ↔ airwaves.RunsWith Distinct init twoFrames :=
  passedOnce_iff _ (by decide)

end Ns2
