import Ns2.Imep.Tracks

/-! An object packet of a neighbour arrives: it is passed on with those that waited for it, or it waits,
or it is dropped. -/

namespace Ns2.Imep

open List

section Chains

variable {passed : List ℕ} {arrived : List (ℕ × ℚ)} {last : Option ℕ} {q : List Txent} {n k : ℕ}

theorem lt_of_head {passed : List ℕ} (hp : passed.Pairwise (· > ·)) (h : ∀ k ∈ passed.head?, k < n) :
    ∀ k ∈ passed, k < n := by
  cases passed with
  | nil => exact nofun
  | cons k passed =>
    intro m hm
    have hk : k < n := h k rfl
    rcases mem_cons.1 hm with rfl | hm
    · exact hk
    · exact lt_trans (rel_of_pairwise_cons hp hm) hk

theorem tracks_of_chain (hp : passed.Pairwise (· > ·)) (hlt : ∀ m ∈ passed, m < n)
    (hlast : last = some ((n + k) % 256)) (hq : Waiting (n + k) q) (hgap : ∀ t ∈ q, n + k + 1 < t.number)
    (harr : ∀ t ∈ q, ∃ p ∈ arrived, p.1 = t.number ∧ t.expire = p.2 + maxRetransTime) :
    Tracks ((range' n (k + 1)).reverse ++ passed) arrived last q := by
  have hcons : (range' n (k + 1)).reverse = (n + k) :: (range' n k).reverse := by
    rw [range'_1_concat, reverse_append]
    rfl
  refine ⟨fun h => ?_, fun m hm => ?_, ?_, harr⟩
  · rw [hcons] at h
    cases h
  · rw [hcons] at hm
    obtain rfl := Option.some.inj hm
    exact ⟨hlast, hq, fun t ht => (hgap t ht).ne'⟩
  · refine pairwise_append.2 ⟨pairwise_reverse.2 pairwise_lt_range', hp, fun a ha b hb => ?_⟩
    have hna := (mem_range'_1.1 (mem_reverse.1 ha)).1
    exact lt_of_lt_of_le (hlt b hb) hna

theorem pred_mem_chain {m : ℕ} (hm : m ∈ range' n (k + 1)) (hne : m ≠ n) :
    m - 1 ∈ (range' n (k + 1)).reverse ++ passed := by
  have := mem_range'_1.1 hm
  exact mem_append_left _ (mem_reverse.2 (mem_range'_1.2 (by omega)))

end Chains

namespace ImepAgent

variable {s s' : ImepAgent} {x y : ℤ} {P : ℤ → List ℕ} {A : ℤ → List (ℕ × ℚ)}

theorem othersKept_notify (x : ℤ) (u : Upcall) : OthersKept x s (s.notify u) :=
  ⟨rfl, rfl, rfl, rfl, fun _ => rfl, le_rfl, fun _ _ => rfl, fun _ _ => rfl⟩

theorem passedOn_object_self (x : ℤ) (l : List Upcall) (n : ℕ) :
    passedOn x (l ++ [.object x n]) = passedOn x l ++ [n] := by
  rw [passedOn_append]
  congr 1
  simp [passedOn]

theorem passedOn_object_ne (hxy : y ≠ x) (l : List Upcall) (n : ℕ) :
    passedOn y (l ++ [.object x n]) = passedOn y l := by
  rw [passedOn_append]
  have : passedOn y [.object x n] = [] := by simp [passedOn, hxy.symm]
  rw [this, append_nil]

theorem passedOn_objects_self (x : ℤ) (l : List Upcall) (q : List Txent) :
    passedOn x (l ++ q.map fun t => .object x t.number) = passedOn x l ++ q.map Txent.number := by
  rw [passedOn_append]
  simp [passedOn]

theorem passedOn_objects_ne (hxy : y ≠ x) (l : List Upcall) (q : List Txent) :
    passedOn y (l ++ q.map fun t => .object x t.number) = passedOn y l := by
  rw [passedOn_append]
  have : passedOn y (q.map fun t => .object x t.number) = [] := by
    simp [passedOn, hxy.symm]
  rw [this, append_nil]

/-- A packet of `x` has been passed on, and the queue is to be searched for those that follow it. -/
theorem ordered_deliver (h : Ordered s P A) (hk : OthersKept x s s')
    (hd : dstOf s'.incomingQ x = { dstOf s.incomingQ x with txents := s'.queueOf x })
    (hsub : ∀ t ∈ s'.queueOf x, t ∈ s.queueOf x)
    {P' : ℤ → List ℕ} (hP : ∀ y, y ≠ x → P' y = P y)
    {A' : ℤ → List (ℕ × ℚ)} (hA : ∀ y, y ≠ x → A' y = A y)
    (hAx : ∀ p ∈ A' x, 0 ≤ p.2 ∧ p.2 ≤ s.now)
    (ht : Tracks (P' x) (A' x) (s'.lastOf x) (s'.queueOf x)) : Ordered s' P' A' := by
  have hqueue : ∀ y, ∀ t ∈ s'.queueOf y, t ∈ s.queueOf y := fun y t hty => by
    by_cases hy : y = x
    · exact hy ▸ hsub t (hy ▸ hty)
    · rw [queueOf, hk.dst y hy] at hty
      exact hty
  refine ⟨hk.addrs ▸ h.addrs, hk.indices ▸ h.indices, hk.now ▸ h.now, fun y => ?_, fun y => ?_,
    hk.now ▸ hk.timer ▸ h.timer, fun y t hty => ?_, fun y t hty => ?_, fun y => ?_⟩
  · rw [hk.now]
    by_cases hy : y = x
    · exact hy ▸ hAx
    · exact hA y hy ▸ h.times y
  · by_cases hy : y = x
    · rw [hy, hd]
      exact h.idle x
    · rw [hk.dst y hy]
      exact h.idle y
  · rw [hk.timer]
    exact h.due y t (hqueue y t hty)
  · rw [hk.inOf]
    exact h.alive y t (hqueue y t hty)
  · by_cases hy : y = x
    · exact hy ▸ ht
    · rw [hP y hy, hA y hy, hk.last y hy, queueOf, hk.dst y hy]
      exact h.tracks y

/-- What the arrival of the packet `n` of `x` leaves behind, of which `new` are passed on. -/
structure Heeded (x : ℤ) (n : ℕ) (P : ℤ → List ℕ) (A : ℤ → List (ℕ × ℚ)) (s s' : ImepAgent) : Prop where
  now : s'.now = s.now
  calls : ∀ y, y ≠ x → passedOn y s'.rtagent = []
  ordered : Ordered s' (fun y => (passedOn y s'.rtagent).reverse ++ P y)
    fun y => if x = y then (n, s.now) :: A y else A y
  skips : ∀ m ∈ passedOn x s'.rtagent, (∃ k ∈ (passedOn x s'.rtagent).reverse ++ P x, k < m) →
    m - 1 ∈ (passedOn x s'.rtagent).reverse ++ P x

variable {n last : ℕ}

theorem arrive_times (h : Ordered s P A) (n : ℕ) :
    ∀ p ∈ (n, s.now) :: A x, 0 ≤ p.2 ∧ p.2 ≤ s.now := by
  intro p hp
  rcases mem_cons.1 hp with rfl | hp
  · exact ⟨h.now, le_refl _⟩
  · exact h.times x p hp

theorem heeded_next (h : Ordered s P A) (hcalls : ∀ y, passedOn y s.rtagent = [])
    (hup : (s.lastOf x).isSome) (hlt : ∀ k ∈ (P x).head?, n = k + 1)
    (hsafe : ∀ k ∈ (P x).head?, WrapSafe n (s.queueOf x)) (seq : ℕ) (fuel : ℕ)
    (hfuel : s.buffered ≤ fuel) :
    Heeded x n P A s ((((s.setLastSeq x seq).notify (.object x n)).setLastSeq x
      (n % 256)).deliverInSequence x fuel) := by
  obtain ⟨b, hb⟩ := Option.isSome_iff_exists.1 hup
  set s₁ := ((s.setLastSeq x seq).notify (.object x n)).setLastSeq x (n % 256) with hs₁
  have hk₁ : OthersKept x s s₁ := by
    have hset := othersKept_setLastSeq (s := s) x seq
    exact othersKept_trans (othersKept_trans hset (othersKept_notify x _)) (othersKept_setLastSeq x _)
  have hlast : s₁.lastOf x = some (n % 256) := by
    rw [hs₁, lastOf_setLastSeq (s := (s.setLastSeq x seq).notify (.object x n)) (lastOf_setLastSeq hb seq),
      Nat.mod_mod]
  have hqueue : s₁.queueOf x = s.queueOf x := rfl
  have hwait : Waiting n (s₁.queueOf x) ∧ WrapSafe n (s₁.queueOf x) := by
    rw [hqueue]
    cases hpx : P x with
    | nil =>
      rw [((h.tracks x).fresh hpx).1]
      exact ⟨⟨Pairwise.nil, nofun, nofun⟩, nofun⟩
    | cons k rest =>
      have hk : k ∈ (P x).head? := by rw [hpx]; rfl
      obtain ⟨-, hw, hgap⟩ := (h.tracks x).latest k hk
      have hn := hlt k hk
      refine ⟨hw.mono (by omega) fun t ht => ?_, hsafe k hk⟩
      have := (hw.ahead t ht).1
      have := hgap t ht
      omega
  have hlen : (s₁.queueOf x).length ≤ fuel := (length_dstOf_le x s₁.incomingQ).trans hfuel
  obtain ⟨taken, rest, hsplit, hnum, hl', hd', hrest, hrt, hk'⟩ :=
    deliverInSequence_spec hlast hwait.1 hwait.2 hlen
  set s' := s₁.deliverInSequence x fuel with hs'
  have hk : OthersKept x s s' := othersKept_trans hk₁ hk'
  have hq' : s'.queueOf x = rest := congrArg Dstent.txents hd'
  have hsub : ∀ t ∈ rest, t ∈ s.queueOf x := fun t ht => by
    rw [← hqueue, hsplit]
    exact mem_append_right _ ht
  have hnew : passedOn x s'.rtagent = range' n (taken.length + 1) := by
    rw [hrt, passedOn_objects_self, hnum]
    change passedOn x (s.rtagent ++ [.object x n]) ++ _ = _
    rw [passedOn_object_self, hcalls]
    rfl
  have hothers : ∀ y, y ≠ x → passedOn y s'.rtagent = [] := fun y hy => by
    rw [hrt, passedOn_objects_ne hy]
    change passedOn y (s.rtagent ++ [.object x n]) = _
    rw [passedOn_object_ne hy, hcalls]
  have hlt' : ∀ k ∈ P x, k < n := lt_of_head (h.tracks x).decreasing fun k hk => by
    rw [hlt k hk]
    exact Nat.lt_succ_self k
  refine ⟨hk.now, hothers, ordered_deliver h hk ?_ ?_ ?_ ?_ ?_ ?_, ?_⟩
  · rw [hd', hq']
    rfl
  · exact hq' ▸ hsub
  · exact fun y hy => by rw [hothers y hy]; rfl
  · exact fun y hy => if_neg hy.symm
  · rw [if_pos rfl]
    exact arrive_times h n
  · rw [hnew, if_pos rfl, hq']
    have hwrest : Waiting n rest := (hsplit ▸ hwait.1).of_append
    refine tracks_of_chain (h.tracks x).decreasing hlt' hl' ?_ hrest fun t ht => ?_
    · exact hwrest.mono (Nat.le_add_right _ _) fun t ht => by have := hrest t ht; omega
    · obtain ⟨p, hp, hpt⟩ := (h.tracks x).arrived t (hsub t ht)
      exact ⟨p, mem_cons_of_mem _ hp, hpt⟩
  · rw [hnew]
    rintro m hm ⟨k, hk, hkm⟩
    by_cases hmn : m = n
    · subst hmn
      rcases mem_append.1 hk with hk | hk
      · have := (mem_range'_1.1 (mem_reverse.1 hk)).1
        omega
      · obtain ⟨j, rest', hpx⟩ := exists_cons_of_ne_nil (ne_nil_of_mem hk)
        have hj : m = j + 1 := hlt j (by rw [hpx]; rfl)
        rw [hj, hpx]
        exact mem_append_right _ mem_cons_self
    · exact pred_mem_chain hm hmn

theorem lastOf_latest (h : Ordered s P A) {k : ℕ} (hk : k ∈ (P x).head?) :
    (s.setLastSeq x (k % 256)).lastOf x = some (k % 256) := by
  rw [lastOf_setLastSeq ((h.tracks x).latest k hk).1, Nat.mod_mod]

theorem heeded_dropped (h : Ordered s P A) (hcalls : ∀ y, passedOn y s.rtagent = []) {k : ℕ}
    (hk : k ∈ (P x).head?) : Heeded x n P A s (s.setLastSeq x (k % 256)) := by
  have hset : OthersKept x s (s.setLastSeq x (k % 256)) := othersKept_setLastSeq x _
  have hnone : ∀ y, passedOn y (s.setLastSeq x (k % 256)).rtagent = [] := hcalls
  refine ⟨rfl, fun y _ => hcalls y, ordered_deliver h hset rfl (fun t ht => ht) (fun y _ => ?_)
    (fun y hy => if_neg hy.symm) ?_ ?_, ?_⟩
  · rw [hnone]
    rfl
  · rw [if_pos rfl]
    exact arrive_times h n
  · rw [hnone, if_pos rfl, lastOf_latest h hk]
    exact ((h.tracks x).latest k hk).1 ▸ (h.tracks x).mono fun p hp => mem_cons_of_mem _ hp
  · rw [hnone]
    exact nofun

theorem mem_addEntry {d : Dstent} {t u : Txent} (hu : u ∈ (d.addEntry t).txents) :
    u = t ∨ u ∈ d.txents := by
  rw [Dstent.addEntry] at hu
  split at hu
  · exact mem_insertTxent.1 hu
  · exact Or.inr hu

theorem waiting_addEntry {d : Dstent} {t : Txent} {k : ℕ} (h : Waiting k d.txents)
    (ht : k < t.number ∧ t.number < k + 128) (hseq : t.seqno = t.number % 256) :
    Waiting k (d.addEntry t).txents := by
  have hmem : ∀ u ∈ (d.addEntry t).txents, u.seqno = u.number % 256 ∧ k < u.number ∧
      u.number < k + 128 := fun u hu => by
    rcases mem_addEntry hu with rfl | hu
    · exact ⟨hseq, ht⟩
    · exact ⟨h.seqno u hu, h.ahead u hu⟩
  refine ⟨?_, fun u hu => (hmem u hu).2, fun u hu => (hmem u hu).1⟩
  rw [Dstent.addEntry]
  split
  · rename_i hnone
    refine pairwise_insertTxent (b := k) h.sorted ?_ fun u hu heq => ?_
    · rintro u (_ | ⟨_, hu⟩)
      · exact ⟨hseq, ht⟩
      · exact ⟨h.seqno u hu, h.ahead u hu⟩
    · exact findKey_eq_none.1 hnone u hu (by rw [h.seqno u hu, heq, hseq])
  · exact h.sorted

theorem heeded_waits (h : Ordered s P A) (hcalls : ∀ y, passedOn y s.rtagent = [])
    (hin : s.inOf x = some (s.now + maxBeaconTime)) {k : ℕ} (hk : k ∈ (P x).head?)
    (hn : k + 1 < n ∧ n < k + 128) (fuel : ℕ) : Heeded x n P A s
      (((s.setLastSeq x (k % 256)).scheduleIncoming x n).deliverInSequence x fuel) := by
  obtain ⟨hlast, hw, hgap⟩ := (h.tracks x).latest k hk
  set t : Txent := ⟨s.now + maxRetransTime, n % 256, n⟩ with ht
  set s' := (s.setLastSeq x (k % 256)).scheduleIncoming x n with hs'
  have hset : OthersKept x s (s.setLastSeq x (k % 256)) := othersKept_setLastSeq x _
  have hlast' : ∀ y, s'.lastOf y = s.lastOf y := fun y => by
    by_cases hy : y = x
    · exact hy ▸ (lastOf_latest h hk).trans hlast.symm
    · exact hset.last y hy
  have hdst : ∀ y, dstOf s'.incomingQ y = if y = x then (dstOf s.incomingQ x).addEntry t else
      dstOf s.incomingQ y := fun y => dstOf_addEntry
  have hqx : s'.queueOf x = ((dstOf s.incomingQ x).addEntry t).txents := by
    rw [queueOf, hdst, if_pos rfl]
  have hqy : ∀ y, y ≠ x → s'.queueOf y = s.queueOf y := fun y hy => by
    rw [queueOf, hdst, if_neg hy, queueOf]
  have hmem : ∀ y, ∀ u ∈ s'.queueOf y, y = x ∧ u = t ∨ u ∈ s.queueOf y := fun y u hu => by
    by_cases hy : y = x
    · rw [hy, hqx] at hu
      exact (mem_addEntry hu).imp (fun hu => ⟨hy, hu⟩) fun hu => hy ▸ hu
    · exact Or.inr (hqy y hy ▸ hu)
  have hwx : Waiting k (s'.queueOf x) := hqx ▸
    waiting_addEntry hw (show k < n ∧ n < k + 128 from ⟨by omega, hn.2⟩) rfl
  have hgapx : ∀ u ∈ s'.queueOf x, u.number ≠ k + 1 := fun u hu => by
    rcases hmem x u hu with ⟨-, rfl⟩ | hu
    · exact hn.1.ne'
    · exact hgap u hu
  have hstop : s'.deliverInSequence x fuel = s' :=
    deliverInSequence_of_gap (by rw [hlast', hlast]) hwx hgapx fuel
  have hnone : ∀ y, passedOn y s'.rtagent = [] := hcalls
  have htimer : s'.incomingTimer = s.incomingTimer.or (some (s.now + maxRetransTime)) := rfl
  have hsum : maxRetransTime + maxRetransTime ≤ maxBeaconTime ∧ 0 < maxRetransTime := by
    rw [maxRetransTime, retransPeriod, maxRexmits, maxBeaconTime]
    norm_num
  rw [hstop]
  refine ⟨rfl, fun y _ => hcalls y, ⟨?_, ?_, h.now, fun y => ?_, fun y => ?_, fun d hd => ?_,
    fun y u hu => ?_, fun y u hu => ?_, fun y => ?_⟩, ?_⟩
  · exact nodup_addEntry h.addrs
  · exact hset.indices ▸ h.indices
  · split_ifs
    · exact arrive_times h n
    · exact h.times y
  · rw [hdst]
    split_ifs
    · rw [Dstent.addEntry]
      split <;> exact h.idle x
    · exact h.idle y
  · rw [htimer] at hd
    cases hti : s.incomingTimer with
    | none =>
      rw [hti] at hd
      obtain rfl := Option.some.inj hd
      exact ⟨by change s.now ≤ _; linarith, le_refl _⟩
    | some d' =>
      rw [hti] at hd
      obtain rfl := Option.some.inj hd
      exact h.timer d' hti
  · rw [htimer]
    rcases hmem y u hu with ⟨-, rfl⟩ | hu
    · cases hti : s.incomingTimer with
      | none => exact ⟨_, rfl, le_refl _⟩
      | some d => exact ⟨d, rfl, (h.timer d hti).2⟩
    · obtain ⟨d, hd, hdu⟩ := h.due y u hu
      rw [hd]
      exact ⟨d, rfl, hdu⟩
  · rw [show s'.inOf y = s.inOf y from hset.inOf y]
    rcases hmem y u hu with ⟨rfl, rfl⟩ | hu
    · refine ⟨_, hin, ?_⟩
      linarith
    · exact h.alive y u hu
  · rw [hlast', hnone]
    by_cases hy : y = x
    · rw [hy, if_pos rfl]
      have hold := h.tracks x
      refine ⟨fun hp => ?_, fun j hj => ?_, hold.decreasing, fun u hu => ?_⟩
      · rw [show P x = [] from hp] at hk
        cases hk
      · obtain rfl := Option.some.inj (hk.symm.trans hj)
        exact ⟨hlast, hwx, hgapx⟩
      · rcases hmem x u hu with ⟨-, rfl⟩ | hu
        · exact ⟨_, mem_cons_self, rfl, rfl⟩
        · obtain ⟨p, hp, hpu⟩ := hold.arrived u hu
          exact ⟨p, mem_cons_of_mem _ hp, hpu⟩
    · rw [if_neg (Ne.symm hy), hqy y hy]
      exact h.tracks y
  · rw [hnone]
    intro _ hd
    cases hd

theorem heeded_imepObjectInput (h : Ordered s P A) (hcalls : ∀ y, passedOn y s.rtagent = [])
    (hup : (s.lastOf x).isSome) (hin : s.inOf x = some (s.now + maxBeaconTime))
    (hwin : ∀ k ∈ (P x).head?, n < k + 128 ∧ k < n + 128)
    (hfirst : P x ≠ [] → s.lastOf x = some 0 → n % 256 = 1)
    (hsafe : ∀ k ∈ (P x).head?, n = k + 1 → WrapSafe n (s.queueOf x)) :
    ∃ s', s.imepObjectInput x n = some s' ∧ Heeded x n P A s s' := by
  obtain ⟨b, hb⟩ := Option.isSome_iff_exists.1 hup
  obtain ⟨l, hl, -, hlb⟩ := lastOf_eq_some hb
  rw [imepObjectInput, hl]
  dsimp only
  cases hpx : P x with
  | nil =>
    have hb0 : b = 0 := ((h.tracks x).fresh hpx).2 b hb
    have hvalid : l.lastSeqValid = false := by rw [ImepLink.lastSeqValid, hlb, hb0]; rfl
    have hreg : seqDiff (n % 256) ((n % 256 + 255) % 256) = 1 := by
      rw [show n % 256 = (n + 256) % 256 by omega, show ((n + 256) % 256 + 255) % 256 = (n + 255) % 256 by omega,
        seqDiff_eq (by omega) (by omega)]
      omega
    rw [hvalid, if_neg Bool.false_ne_true, hreg, if_neg (by decide), if_pos rfl, if_pos (by omega)]
    refine ⟨_, rfl, heeded_next h hcalls hup ?_ ?_ _ _ (le_refl s.buffered)⟩
    · rw [hpx]
      exact nofun
    · rw [hpx]
      exact nofun
  | cons k rest =>
    have hk : k ∈ (P x).head? := by rw [hpx]; rfl
    have hbk : b = k % 256 := Option.some.inj (hb.symm.trans ((h.tracks x).latest k hk).1)
    obtain ⟨hnk, hkn⟩ := hwin k hk
    have hlast : (if l.lastSeqValid = true then l.lastSeq else (n % 256 + 255) % 256) = k % 256 := by
      split_ifs with hvalid
      · exact hlb.trans hbk
      · have hb0 : b = 0 := by
          rw [← hlb]
          simpa [ImepLink.lastSeqValid] using hvalid
        have := hfirst (by rw [hpx]; exact cons_ne_nil _ _) (hb0 ▸ hb)
        omega
    rw [hlast, seqDiff_eq hnk hkn]
    split_ifs with hle h1 hnext
    · exact ⟨_, rfl, heeded_dropped h hcalls hk⟩
    · have hn : n = k + 1 := by omega
      refine ⟨_, rfl, heeded_next h hcalls hup (fun j hj => ?_) (fun j hj => ?_) _ _
        (le_refl s.buffered)⟩
      · obtain rfl := Option.some.inj (hk.symm.trans hj)
        exact hn
      · obtain rfl := Option.some.inj (hk.symm.trans hj)
        exact hsafe k hk hn
    · omega
    · exact ⟨_, rfl, heeded_waits h hcalls hin hk (by omega) _⟩

end ImepAgent

end Ns2.Imep
