import Mathlib.Data.List.Induction
import Mathlib.Data.List.Nodup
import Mathlib.Data.Rat.Floor
import Ns2.Lib.Machine

/-! `BundleManager::localDelivery` up to the point where a bundle counts as delivered: the pass
that expires the fragments waiting for reassembly, and the list of the bundles delivered before,
which is aged, cleaned and searched in one pass. Times are rational numbers. -/

namespace Ns2

namespace BundleManager

open List

/-- A bundle with its endpoint ids as text. -/
structure DeliveryBundle where
  src : List Char
  uId : ℤ
  timestamp : ℕ
  expTime : ℚ
  hasFrag : Bool
deriving DecidableEq

/-- A bundle of `frags_` with its `next_frag_` chain. -/
structure WaitingContext where
  first : DeliveryBundle
  nextFrag : List DeliveryBundle
deriving DecidableEq

structure BundleId where
  source : List Char
  timestamp : ℚ
  exptime : ℚ
  lifespan : ℚ
  uId : ℤ
deriving DecidableEq

/-- Units of 2⁻³² s. -/
def getTimestamp (clock : ℚ) : ℕ := ⌊clock * 0x100000000⌋₊

namespace WaitingContext

def bundles (c : WaitingContext) : List DeliveryBundle := c.first :: c.nextFrag

def isExpired (now : ℕ) (c : WaitingContext) : Bool :=
  (c.first.timestamp : ℚ) + c.first.expTime * 0x100000000 < now

end WaitingContext

/-- The loop over the waiting fragments from `cur` on, with the list `frags` and the bundles
deleted: `prev` stays NULL, and the list begins behind each context that is taken out. -/
def expireLoop (now : ℕ) : List WaitingContext → List WaitingContext → List DeliveryBundle →
    List WaitingContext × List DeliveryBundle
  | [], frags, deleted => (frags, deleted)
  | cur :: next, frags, deleted =>
    if cur.isExpired now then expireLoop now next next (deleted ++ cur.bundles)
    else expireLoop now next frags deleted

def expireFrags (now : ℕ) (frags : List WaitingContext) :
    List WaitingContext × List DeliveryBundle :=
  expireLoop now frags frags []

namespace BundleId

def age (now : ℚ) (bid : BundleId) : BundleId :=
  { bid with
    lifespan := bid.lifespan + (now - bid.timestamp)
    timestamp := now }

def key (bid : BundleId) : List Char × ℤ := (bid.source, bid.uId)

end BundleId

/-- The loop over `bids_` for a bundle, up to an entry that has its source and `u_id`. -/
def bidsLoop (now : ℚ) (s : List Char) (uId : ℤ) : List BundleId → List BundleId × Bool
  | [] => ([], false)
  | bid :: next =>
    if (bid.age now).lifespan > (bid.age now).exptime then bidsLoop now s uId next
    else if uId = bid.uId ∧ s = bid.source then (bid.age now :: next, true)
    else
      let r := bidsLoop now s uId next
      (bid.age now :: r.1, r.2)

/-- The two lists of the bundle manager. -/
structure Lists where
  frags : List WaitingContext
  bids : List BundleId
deriving DecidableEq

/-- A call: the bundle, the time, whether its destination is registered, and `local`. -/
structure Call where
  bundle : DeliveryBundle
  now : ℚ
  registered : Bool
  isLocal : Bool

/-- `localDelivery` with the bundle that counts as a new delivery; `defragment` puts fragments
together, or keeps them. -/
def localDelivery
    (defragment : DeliveryBundle → List WaitingContext → List WaitingContext × Option DeliveryBundle)
    (c : Call) (m : Lists) : Lists × Option DeliveryBundle :=
  let r := if c.bundle.hasFrag then defragment c.bundle m.frags else (m.frags, some c.bundle)
  match r.2 with
  | none => ({ m with frags := r.1 }, none)
  | some bundle =>
    let frags := (expireFrags (getTimestamp c.now) r.1).1
    if c.registered = false then ({ m with frags := frags }, none)
    else
      let l := bidsLoop c.now bundle.src bundle.uId m.bids
      if c.isLocal = false ∧ l.2 = false then
        (⟨frags, l.1 ++ [⟨bundle.src, c.now, bundle.expTime * 100, 0, bundle.uId⟩]⟩, some bundle)
      else (⟨frags, l.1⟩, none)

section

variable {now : ℕ}

/-- Expiry as it is meant: the expired contexts go with all their fragments, the others stay. -/
def ExpiresExactly (now : ℕ) (frags : List WaitingContext) : Prop :=
  expireFrags now frags = (frags.filter fun c => !c.isExpired now,
    (frags.filter fun c => c.isExpired now).flatMap WaitingContext.bundles)

section

variable (cur frags : List WaitingContext) (deleted : List DeliveryBundle)
include cur frags deleted

theorem expireLoop_deleted : (expireLoop now cur frags deleted).2 =
      deleted ++ (cur.filter fun c => c.isExpired now).flatMap WaitingContext.bundles := by
  induction cur generalizing frags deleted with
  | nil => simp [expireLoop]
  | cons c next ih =>
    rw [expireLoop]
    by_cases hc : c.isExpired now = true
    · rw [if_pos hc, ih, filter_cons_of_pos hc, flatMap_cons, append_assoc]
    · rw [if_neg hc, ih, filter_cons_of_neg hc]

/-- The list that is left does not depend on what was deleted, nor, where a context expires, on
the contexts in front of it. -/
theorem expireLoop_frags : (expireLoop now cur frags deleted).1 =
      if cur.any (WaitingContext.isExpired now) then (expireFrags now cur).1 else frags := by
  induction cur generalizing frags deleted with
  | nil => rfl
  | cons c next ih =>
    rw [expireFrags, expireLoop, expireLoop]
    by_cases hc : c.isExpired now = true
    · rw [if_pos hc, if_pos hc, ih, ih, any_cons, hc, Bool.true_or, if_pos rfl]
    · rw [if_neg hc, if_neg hc, ih, ih, any_cons, Bool.eq_false_iff.2 hc, Bool.false_or]
      split_ifs <;> rfl

end

theorem expireFrags_cons_of_expired {c : WaitingContext} (hc : c.isExpired now = true)
    (next : List WaitingContext) : (expireFrags now (c :: next)).1 = (expireFrags now next).1 := by
  rw [expireFrags, expireLoop, if_pos hc, expireLoop_frags]
  split_ifs with hany
  · rfl
  · rw [expireFrags, expireLoop_frags, if_neg hany]

theorem expireFrags_cons_of_waiting {c : WaitingContext} (hc : ¬ c.isExpired now = true)
    (next : List WaitingContext) : (expireFrags now (c :: next)).1 =
      if next.any (WaitingContext.isExpired now) then (expireFrags now next).1 else c :: next := by
  rw [expireFrags, expireLoop, if_neg hc, expireLoop_frags]

theorem filter_waiting {next : List WaitingContext}
    (hany : ¬ next.any (WaitingContext.isExpired now) = true) :
    next.filter (fun c => !c.isExpired now) = next := by
  rw [filter_eq_self]
  intro d hd
  by_contra hd'
  exact hany (any_eq_true.2 ⟨d, hd, by simpa using hd'⟩)

theorem expireFrags_sublist (now : ℕ) (frags : List WaitingContext) :
    (expireFrags now frags).1.Sublist (frags.filter fun c => !c.isExpired now) := by
  induction frags with
  | nil => exact Sublist.refl _
  | cons c next ih =>
    by_cases hc : c.isExpired now = true
    · rw [expireFrags_cons_of_expired hc, filter_cons_of_neg (by simp [hc])]
      exact ih
    · rw [expireFrags_cons_of_waiting hc, filter_cons_of_pos (by simp [hc])]
      split_ifs with hany
      · exact ih.cons c
      · rw [filter_waiting hany]

/-- The pass keeps exactly the contexts that are not expired when none of these stands in front
of an expired one. -/
theorem expiresExactly_iff (now : ℕ) (frags : List WaitingContext) :
    ExpiresExactly now frags ↔
      frags.Pairwise fun c d => d.isExpired now = true → c.isExpired now = true := by
  have hdeleted : (expireFrags now frags).2 =
      (frags.filter fun c => c.isExpired now).flatMap WaitingContext.bundles :=
    (expireLoop_deleted frags frags []).trans (nil_append _)
  rw [ExpiresExactly, Prod.ext_iff]
  refine (and_iff_left hdeleted).trans ?_
  clear hdeleted
  induction frags with
  | nil => exact iff_of_true rfl Pairwise.nil
  | cons c next ih =>
    rw [pairwise_cons]
    by_cases hc : c.isExpired now = true
    · rw [expireFrags_cons_of_expired hc, filter_cons_of_neg (by simp [hc]), ih,
        and_iff_right fun d _ _ => hc]
    · rw [expireFrags_cons_of_waiting hc, filter_cons_of_pos (by simp [hc])]
      by_cases hany : next.any (WaitingContext.isExpired now) = true
      · rw [if_pos hany]
        obtain ⟨d, hd, hexpired⟩ := any_eq_true.1 hany
        refine iff_of_false (fun heq => ?_) fun h => hc (h.1 d hd hexpired)
        have hle := (expireFrags_sublist now next).length_le
        rw [heq, length_cons] at hle
        omega
      · have hnone : ∀ d ∈ next, ¬ d.isExpired now = true := fun d hd hexpired =>
          hany (any_eq_true.2 ⟨d, hd, hexpired⟩)
        rw [if_neg hany, filter_waiting hany]
        refine iff_of_true rfl ⟨fun d hd hexpired => absurd hexpired (hnone d hd), ?_⟩
        apply pairwise_of_forall_mem_list
        exact fun _ _ d hd hexpired => absurd hexpired (hnone d hd)

/-- A context of one bundle. -/
def waitingFor (expTime : ℚ) : WaitingContext := ⟨⟨['a'], 1, 0, expTime, true⟩, []⟩

/-- A bundle with 1000 s to live waits in front of one with 10 s. -/
theorem not_expiresExactly : ¬ ∀ (now : ℕ) (frags : List WaitingContext),
    ExpiresExactly now frags := by
  intro h
  have hlost := congrArg Prod.fst (h (20 * 0x100000000) [waitingFor 1000, waitingFor 10])
  have hempty : (expireFrags (20 * 0x100000000) [waitingFor 1000, waitingFor 10]).1 = [] := by
    decide +kernel
  rw [hempty] at hlost
  exact absurd hlost (by decide +kernel)

end

namespace BundleId

variable {now : ℚ} {bid : BundleId}

/-- When the bundle was delivered; the ages are advanced later. -/
def delivered (bid : BundleId) : ℚ := bid.timestamp - bid.lifespan

@[simp] theorem age_key : (bid.age now).key = bid.key := rfl

@[simp] theorem age_source : (bid.age now).source = bid.source := rfl

@[simp] theorem age_uId : (bid.age now).uId = bid.uId := rfl

@[simp] theorem age_exptime : (bid.age now).exptime = bid.exptime := rfl

@[simp] theorem age_delivered : (bid.age now).delivered = bid.delivered := by
  simp only [delivered, age]
  ring

theorem age_lifespan : (bid.age now).lifespan = now - bid.delivered := by
  simp only [delivered, age]
  ring

/-- The entry still counts. -/
def Unexpired (now : ℚ) (bid : BundleId) : Prop := now - bid.delivered ≤ bid.exptime

theorem unexpired_iff : bid.Unexpired now ↔ ¬ (bid.age now).lifespan > (bid.age now).exptime := by
  rw [Unexpired, age_lifespan, age_exptime, not_lt]

end BundleId

section

variable {now : ℚ} {s : List Char} {uId : ℤ}
variable {bids : List BundleId}

theorem keys_bidsLoop (bids : List BundleId) :
    ((bidsLoop now s uId bids).1.map BundleId.key).Sublist (bids.map BundleId.key) := by
  induction bids with
  | nil => exact Sublist.refl _
  | cons bid next ih =>
    rw [bidsLoop]
    split_ifs
    · exact ih.cons _
    · exact Sublist.refl _
    · exact ih.cons_cons _

theorem bidsLoop_keeps {bid : BundleId} (hbid : bid ∈ bids) (hunexpired : bid.Unexpired now) :
    ∃ bid' ∈ (bidsLoop now s uId bids).1,
      bid'.key = bid.key ∧ bid'.delivered = bid.delivered ∧ bid'.exptime = bid.exptime := by
  induction bids with
  | nil => cases hbid
  | cons b next ih =>
    rw [bidsLoop]
    rcases mem_cons.1 hbid with rfl | hnext
    · rw [if_neg (BundleId.unexpired_iff.1 hunexpired)]
      split_ifs
      · exact ⟨bid.age now, mem_cons_self, by simp⟩
      · exact ⟨bid.age now, mem_cons_self, by simp⟩
    · obtain ⟨bid', hbid', hsame⟩ := ih hnext
      split_ifs
      · exact ⟨bid', hbid', hsame⟩
      · exact ⟨bid, mem_cons_of_mem _ hnext, rfl, rfl, rfl⟩
      · exact ⟨bid', mem_cons_of_mem _ hbid', hsame⟩

theorem bidsLoop_found {bid : BundleId} (hbid : bid ∈ bids) (hunexpired : bid.Unexpired now)
    (hkey : bid.key = (s, uId)) : (bidsLoop now s uId bids).2 = true := by
  induction bids with
  | nil => cases hbid
  | cons b next ih =>
    rw [bidsLoop]
    rcases mem_cons.1 hbid with rfl | hnext
    · obtain ⟨rfl, rfl⟩ := Prod.mk.inj hkey
      rw [if_neg (BundleId.unexpired_iff.1 hunexpired), if_pos ⟨rfl, rfl⟩]
    · split_ifs
      · exact ih hnext
      · rfl
      · exact ih hnext

theorem bidsLoop_absent (h : (bidsLoop now s uId bids).2 = false) :
    (s, uId) ∉ (bidsLoop now s uId bids).1.map BundleId.key := by
  induction bids with
  | nil => exact not_mem_nil
  | cons b next ih =>
    rw [bidsLoop] at h ⊢
    split_ifs at h ⊢ with hexpired hmatch
    · exact ih h
    · rw [map_cons, mem_cons, not_or]
      refine ⟨fun heq => hmatch ?_, ih h⟩
      obtain ⟨rfl, rfl⟩ := Prod.mk.inj heq
      exact ⟨rfl, rfl⟩

end

section

variable
  {defragment : DeliveryBundle → List WaitingContext → List WaitingContext × Option DeliveryBundle}
  {m m' : Lists} {c : Call} {a : Option DeliveryBundle}
variable {log : List (ℚ × DeliveryBundle)}

def machine
    (defragment : DeliveryBundle → List WaitingContext → List WaitingContext × Option DeliveryBundle) :
    Machine Lists Call (Option DeliveryBundle) where
  step m c := some (localDelivery defragment c m)

/-- The new deliveries of a run, with their times. -/
def deliveries (calls : List Call) (as : List (Option DeliveryBundle)) :
    List (ℚ × DeliveryBundle) :=
  (calls.zip as).filterMap fun r => r.2.map fun b => (r.1.now, b)

/-- The entry of `bids_` that a delivery leaves. -/
def IsEntryOf (d : ℚ × DeliveryBundle) (bid : BundleId) : Prop :=
  bid.key = (d.2.src, d.2.uId) ∧ bid.delivered = d.1 ∧ bid.exptime = d.2.expTime * 100

/-- The deliveries and the list of them after calls that were over at `now`. -/
structure Holds (log : List (ℚ × DeliveryBundle)) (now : ℚ) (m : Lists) : Prop where
  once : log.Pairwise fun d e =>
    d.2.src = e.2.src → d.2.uId = e.2.uId → d.1 + d.2.expTime * 100 < e.1
  nodup : (m.bids.map BundleId.key).Nodup
  kept : ∀ d ∈ log, now ≤ d.1 + d.2.expTime * 100 → ∃ bid ∈ m.bids, IsEntryOf d bid

theorem Holds.mono {now now' : ℚ} (h : Holds log now m) (hle : now ≤ now') : Holds log now' m :=
  ⟨h.once, h.nodup, fun d hd hlive => h.kept d hd (hle.trans hlive)⟩

theorem Holds.congr {now : ℚ} (h : Holds log now m) (hbids : m'.bids = m.bids) : Holds log now m' :=
  ⟨h.once, hbids ▸ h.nodup, hbids ▸ h.kept⟩

theorem localDelivery_cases (h : localDelivery defragment c m = (m', a)) :
    (m'.bids = m.bids ∧ a = none) ∨
    (∃ b : DeliveryBundle, m'.bids = (bidsLoop c.now b.src b.uId m.bids).1 ∧ a = none) ∨
    ∃ b : DeliveryBundle, (bidsLoop c.now b.src b.uId m.bids).2 = false ∧ a = some b ∧
      m'.bids = (bidsLoop c.now b.src b.uId m.bids).1 ++
        [⟨b.src, c.now, b.expTime * 100, 0, b.uId⟩] := by
  rw [localDelivery] at h
  dsimp only at h
  generalize (if c.bundle.hasFrag = true then defragment c.bundle m.frags
    else (m.frags, some c.bundle)) = r at h
  split at h
  · obtain ⟨rfl, rfl⟩ := Prod.mk.inj h
    exact Or.inl ⟨rfl, rfl⟩
  · next b _ =>
    split_ifs at h with _ hnew
    · obtain ⟨rfl, rfl⟩ := Prod.mk.inj h
      exact Or.inl ⟨rfl, rfl⟩
    · obtain ⟨rfl, rfl⟩ := Prod.mk.inj h
      exact Or.inr (Or.inr ⟨b, hnew.2, rfl, rfl⟩)
    · obtain ⟨rfl, rfl⟩ := Prod.mk.inj h
      exact Or.inr (Or.inl ⟨b, rfl, rfl⟩)

theorem Holds.bidsLoop {now : ℚ} (h : Holds log now m) (s : List Char) (uId : ℤ) :
    Holds log now ⟨m.frags, (bidsLoop now s uId m.bids).1⟩ := by
  refine ⟨h.once, h.nodup.sublist (keys_bidsLoop m.bids), fun d hd hlive => ?_⟩
  obtain ⟨bid, hbid, hkey, hdelivered, hexptime⟩ := h.kept d hd hlive
  have hunexpired : bid.Unexpired now := by
    rw [BundleId.Unexpired, hdelivered, hexptime]
    linarith
  obtain ⟨bid', hbid', hkey', hdelivered', hexptime'⟩ := bidsLoop_keeps hbid hunexpired
  exact ⟨bid', hbid', hkey'.trans hkey, hdelivered'.trans hdelivered, hexptime'.trans hexptime⟩

theorem Holds.lt_of_absent {now : ℚ} (h : Holds log now m) {s : List Char} {uId : ℤ}
    (habsent : (BundleManager.bidsLoop now s uId m.bids).2 = false) {d : ℚ × DeliveryBundle}
    (hd : d ∈ log) (hsrc : d.2.src = s) (huId : d.2.uId = uId) : d.1 + d.2.expTime * 100 < now := by
  by_contra hnot
  obtain ⟨bid, hbid, hkey, hdelivered, hexptime⟩ := h.kept d hd (not_lt.1 hnot)
  have hunexpired : bid.Unexpired now := by
    rw [BundleId.Unexpired, hdelivered, hexptime]
    linarith
  have hfound := bidsLoop_found hbid hunexpired (hkey.trans (by rw [hsrc, huId]))
  rw [hfound] at habsent
  cases habsent

theorem Holds.step (h : Holds log c.now m) (hstep : localDelivery defragment c m = (m', a)) :
    Holds (log ++ (a.map fun b => (c.now, b)).toList) c.now m' := by
  rcases localDelivery_cases hstep with ⟨hbids, rfl⟩ | ⟨b, hbids, rfl⟩ | ⟨b, habsent, rfl, hbids⟩
  · simpa using h.congr hbids
  · simpa using (h.bidsLoop b.src b.uId).congr hbids
  · have hloop := h.bidsLoop b.src b.uId
    have hnew := bidsLoop_absent habsent
    refine ⟨?_, ?_, ?_⟩
    · refine pairwise_append.2 ⟨h.once, by simp, fun d hd e he hsrc huId => ?_⟩
      obtain rfl : e = (c.now, b) := by simpa using he
      exact h.lt_of_absent habsent hd hsrc huId
    · rw [hbids, map_append, map_singleton]
      refine hloop.nodup.append (nodup_singleton _) fun k hk hk' => ?_
      obtain rfl := mem_singleton.1 hk'
      exact hnew hk
    · intro d hd hlive
      rw [hbids]
      rcases mem_append.1 hd with hd | hd
      · obtain ⟨bid, hbid, hentry⟩ := hloop.kept d hd hlive
        exact ⟨bid, mem_append_left _ hbid, hentry⟩
      · obtain rfl : d = (c.now, b) := by simpa using hd
        exact ⟨_, mem_append_right _ (mem_singleton_self _), rfl, sub_zero _, rfl⟩

end

end BundleManager

end Ns2
