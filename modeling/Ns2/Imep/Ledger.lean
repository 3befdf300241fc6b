import Mathlib.Data.List.Range
import Ns2.Imep.Agent

/-! The response list of a packet of objects, and the retransmission queue when a neighbour is
removed from the lists in it. What the retransmission queue is for: a ledger of the neighbours
that were asked for each packet, and of those that have acknowledged it or have been set down
since. -/

namespace Ns2.Imep

open List Function

namespace ObjectBlock

variable {ob : ObjectBlock} {x y : ℤ}

/-- The response list. -/
def responses (ob : ObjectBlock) : List ℤ := (range ob.numResponses).map ob.resp

/-- The search for `x` does not find it behind the end of the response list. -/
def Clean (x : ℤ) (ob : ObjectBlock) : Prop := x ∈ ob.responses ∨ ob.resp ob.numResponses ≠ x

theorem mem_responses : x ∈ ob.responses ↔ ∃ i < ob.numResponses, ob.resp i = x := by
  simp [responses]

theorem slotOf_of_mem (h : x ∈ ob.responses) :
    ob.slotOf x < ob.numResponses ∧ ob.resp (ob.slotOf x) = x := by
  rw [slotOf]
  cases hf : (range ob.numResponses).find? fun i => ob.resp i = x with
  | none =>
    obtain ⟨i, hi, hx⟩ := mem_responses.1 h
    have := find?_eq_none.1 hf i (mem_range.2 hi)
    exact absurd hx (by simpa using this)
  | some i =>
    refine ⟨mem_range.1 (mem_of_find?_eq_some hf), ?_⟩
    simpa using find?_some hf

theorem slotOf_of_notMem (h : x ∉ ob.responses) : ob.slotOf x = ob.numResponses := by
  rw [slotOf]
  cases hf : (range ob.numResponses).find? fun i => ob.resp i = x with
  | none => rfl
  | some i =>
    have hi := mem_range.1 (mem_of_find?_eq_some hf)
    have hx : ob.resp i = x := by simpa using find?_some hf
    exact absurd (mem_responses.2 ⟨i, hi, hx⟩) h

theorem perm_update {r : ℕ → ℤ} {i m : ℕ} (hi : i < m) (hx : r i = x) :
    (x :: (range m).map (Function.update r i (r m))).Perm ((range (m + 1)).map r) := by
  obtain ⟨k, rfl⟩ : ∃ k, m = i + 1 + k := ⟨m - (i + 1), by omega⟩
  have hleft : (range i).map (Function.update r i (r (i + 1 + k))) = (range i).map r :=
    map_congr_left fun j hj => update_of_ne (mem_range.1 hj).ne _ _
  have hright : (range k).map (Function.update r i (r (i + 1 + k)) ∘ (i + 1 + ·)) =
      (range k).map (r ∘ (i + 1 + ·)) :=
    map_congr_left fun j _ =>
      update_of_ne (show i + 1 + j ≠ i by omega) _ _
  have hsplit : ∀ f : ℕ → ℤ, (range (i + 1 + k)).map f =
      (range i).map f ++ f i :: (range k).map (f ∘ (i + 1 + ·)) := by
    intro f
    rw [range_add, range_succ]
    simp [comp_def]
  rw [range_succ, map_append, hsplit r, hsplit (Function.update r i (r (i + 1 + k))), hleft,
    hright, update_self, hx]
  generalize (range i).map r = A
  generalize (range k).map (r ∘ (i + 1 + ·)) = B
  have hmid : (A ++ r (i + 1 + k) :: B).Perm (A ++ B ++ [r (i + 1 + k)]) := by
    rw [append_assoc]
    exact (perm_append_singleton _ B).symm.append_left A
  have hcons : (x :: (A ++ B ++ [r (i + 1 + k)])).Perm (A ++ x :: B ++ [r (i + 1 + k)]) := by
    rw [← cons_append]
    exact (perm_middle.symm).append_right _
  exact (hmid.cons x).trans (by simpa using hcons)

theorem responses_of_one (hx : x ∈ ob.responses) (h : ob.numResponses = 1) :
    ob.responses = [x] := by
  obtain ⟨i, hi, rfl⟩ := mem_responses.1 hx
  obtain rfl : i = 0 := by omega
  rw [responses, h]
  rfl

/-- What the removal of a neighbour comes to where the slot behind the end does no harm. -/
inductive Dropped (x : ℤ) (ob : ObjectBlock) : Removal → Prop
  | absent (hx : x ∉ ob.responses) : Dropped x ob .absent
  | last (hx : ob.responses = [x]) : Dropped x ob .last
  | shortened (ob' : ObjectBlock) (hnum : ob'.number = ob.number) (hpos : 0 < ob'.numResponses)
    (hperm : (x :: ob'.responses).Perm ob.responses) : Dropped x ob (.shortened ob')

theorem dropResponse_dropped (hpos : 0 < ob.numResponses) (hc : ob.Clean x) :
    Dropped x ob (ob.dropResponse x) := by
  rw [dropResponse]
  by_cases hx : x ∈ ob.responses
  · obtain ⟨hlt, hslot⟩ := slotOf_of_mem hx
    simp only
    rw [if_neg (not_not.2 hslot)]
    split_ifs with hone hlast
    · exact .last (responses_of_one hx hone)
    · refine .shortened _ rfl (show 0 < ob.numResponses - 1 by omega) ?_
      have := perm_update (m := ob.numResponses - 1) (by omega) hslot
      rwa [Nat.sub_add_cancel hpos] at this
    · refine .shortened _ rfl (show 0 < ob.numResponses - 1 by omega) ?_
      have hsucc : ob.responses = (range (ob.numResponses - 1)).map ob.resp ++ [x] := by
        rw [responses, ← Nat.sub_add_cancel hpos, range_succ, map_append,
          Nat.sub_add_cancel hpos, not_not.1 hlast, map_singleton, hslot]
      rw [hsucc]
      exact (perm_append_singleton x _).symm
  · have hslot := slotOf_of_notMem hx
    simp only [hslot]
    rw [if_pos (hc.resolve_left hx)]
    exact .absent hx

theorem Dropped.mem_responses {ob' : ObjectBlock} (h : Dropped x ob (.shortened ob'))
    (hnd : ob.responses.Nodup) :
    ob'.responses.Nodup ∧ ∀ y, y ∈ ob'.responses ↔ y ∈ ob.responses ∧ y ≠ x := by
  cases h with
  | shortened _ hnum hpos hperm =>
    obtain ⟨hx, hnd'⟩ := nodup_cons.1 (hperm.nodup_iff.2 hnd)
    refine ⟨hnd', fun y => ?_⟩
    rw [← hperm.mem_iff, mem_cons]
    constructor
    · exact fun hy => ⟨Or.inr hy, fun heq => hx (heq ▸ hy)⟩
    · exact fun ⟨hy, hne⟩ => hy.resolve_left hne

end ObjectBlock

/-- The response lists in the retransmission queue are as `createResponseList` wrote them, up to the
neighbours that have been removed. -/
structure GoodEntry (r : Rexent) : Prop where
  nodup : r.block.responses.Nodup
  pos : 0 < r.block.numResponses

/-- `x` has been removed from the response lists of the packets in `P`, and those that had no other
neighbour have left the queue. -/
structure Drops (P : ℕ → Prop) (x : ℤ) (q q' : List Rexent) : Prop where
  numbers : (q'.map Rexent.number).Sublist (q.map Rexent.number)
  good : ∀ r' ∈ q', GoodEntry r'
  of_mem : ∀ r' ∈ q', ∃ r ∈ q, r'.number = r.number ∧
    ∀ y ∈ r'.block.responses, y ∈ r.block.responses ∧ (P r.number → y ≠ x)
  to_mem : ∀ r ∈ q, ∀ y ∈ r.block.responses, P r.number ∧ y = x ∨
    ∃ r' ∈ q', r'.number = r.number ∧ y ∈ r'.block.responses

section Drops

variable {q : List Rexent} {x : ℤ} {s : ImepAgent}

theorem Drops.refl {P : ℕ → Prop} (hq : ∀ r ∈ q, GoodEntry r)
    (hx : ∀ r ∈ q, P r.number → x ∉ r.block.responses) : Drops P x q q :=
  ⟨Sublist.refl _, hq,
    fun r hr => ⟨r, hr, rfl, fun _ hy => ⟨hy, fun hP heq => hx r hr hP (heq ▸ hy)⟩⟩,
    fun r hr _ hy => Or.inr ⟨r, hr, rfl, hy⟩⟩

/-- The entry that `purgeReXmitQ` leaves of one. -/
def purged (x : ℤ) (e : Rexent) : Option Rexent :=
  match e.block.dropResponse x with
  | .absent => some e
  | .last => none
  | .shortened ob => some { e with block := ob }

theorem purged_cases {r : Rexent} (hr : GoodEntry r) (hc : r.block.Clean x) :
    purged x r = none ∧ r.block.responses = [x] ∨ ∃ r', purged x r = some r' ∧
      r'.number = r.number ∧ GoodEntry r' ∧
      ∀ y, y ∈ r'.block.responses ↔ y ∈ r.block.responses ∧ y ≠ x := by
  have hd := ObjectBlock.dropResponse_dropped hr.pos hc
  rw [purged]
  generalize r.block.dropResponse x = d at hd
  cases hd with
  | absent hx =>
    exact Or.inr ⟨r, rfl, rfl, hr, fun y => ⟨fun hy => ⟨hy, fun heq => hx (heq ▸ hy)⟩, And.left⟩⟩
  | last hx => exact Or.inl ⟨rfl, hx⟩
  | shortened ob hnum hpos hperm =>
    obtain ⟨hnd, hmem⟩ := (ObjectBlock.Dropped.shortened ob hnum hpos hperm).mem_responses hr.nodup
    exact Or.inr ⟨{ r with block := ob }, rfl, hnum, ⟨hnd, hpos⟩, hmem⟩

theorem drops_filterMap (hq : ∀ r ∈ q, GoodEntry r) (hc : ∀ r ∈ q, r.block.Clean x) :
    Drops (fun _ => True) x q (q.filterMap (purged x)) := by
  induction q with
  | nil => exact ⟨Sublist.refl _, nofun, nofun, nofun⟩
  | cons r q ih =>
    have ih := ih (fun r hr => hq r (mem_cons_of_mem _ hr)) fun r hr =>
      hc r (mem_cons_of_mem _ hr)
    rcases purged_cases (hq r mem_cons_self) (hc r mem_cons_self) with
      ⟨hnone, hx⟩ | ⟨r', hsome, hnum, hgood, hmem⟩
    · rw [filterMap_cons_none hnone]
      refine ⟨ih.numbers.cons _, ih.good, fun r' hr' => ?_, fun r₀ hr₀ y hy => ?_⟩
      · obtain ⟨r₀, hr₀, h⟩ := ih.of_mem r' hr'
        exact ⟨r₀, mem_cons_of_mem _ hr₀, h⟩
      · rcases mem_cons.1 hr₀ with rfl | hr₀
        · rw [hx, mem_singleton] at hy
          exact Or.inl ⟨trivial, hy⟩
        · exact ih.to_mem r₀ hr₀ y hy
    · rw [filterMap_cons_some hsome]
      refine ⟨?_, fun r₀ hr₀ => ?_, fun r₀ hr₀ => ?_, fun r₀ hr₀ y hy => ?_⟩
      · rw [map_cons, map_cons, hnum]
        exact ih.numbers.cons_cons _
      · rcases mem_cons.1 hr₀ with rfl | hr₀
        · exact hgood
        · exact ih.good r₀ hr₀
      · rcases mem_cons.1 hr₀ with rfl | hr₀
        · exact ⟨r, mem_cons_self, hnum, fun y hy =>
            ⟨((hmem y).1 hy).1, fun _ => ((hmem y).1 hy).2⟩⟩
        · obtain ⟨r₁, hr₁, h⟩ := ih.of_mem r₀ hr₀
          exact ⟨r₁, mem_cons_of_mem _ hr₁, h⟩
      · rcases mem_cons.1 hr₀ with rfl | hr₀
        · by_cases hyx : y = x
          · exact Or.inl ⟨trivial, hyx⟩
          · exact Or.inr ⟨r', mem_cons_self, hnum, (hmem y).2 ⟨hy, hyx⟩⟩
        · rcases ih.to_mem r₀ hr₀ y hy with h | ⟨r₁, hr₁, h⟩
          · exact Or.inl h
          · exact Or.inr ⟨r₁, mem_cons_of_mem _ hr₁, h⟩

theorem drops_purgeReXmitQ (hq : ∀ r ∈ s.rexmitq, GoodEntry r) (hc : ∀ r ∈ s.rexmitq, r.block.Clean x) :
    Drops (fun _ => True) x s.rexmitq (s.purgeReXmitQ x).rexmitq :=
  drops_filterMap hq hc

theorem drops_removeObjectResponse (hq : ∀ r ∈ s.rexmitq, GoodEntry r)
    (hnd : (s.rexmitq.map Rexent.number).Nodup) {r : Rexent} (hr : r ∈ s.rexmitq)
    (hc : r.block.Clean x) :
    Drops (· = r.number) x s.rexmitq (s.removeObjectResponse r.block x).rexmitq := by
  have huniq : ∀ r' ∈ s.rexmitq, r'.number = r.number → r' = r := fun r' hr' heq =>
    inj_on_of_nodup_map hnd hr' hr heq
  have hd := ObjectBlock.dropResponse_dropped (hq r hr).pos hc
  rw [ImepAgent.removeObjectResponse]
  generalize r.block.dropResponse x = d at hd
  cases hd with
  | absent hx =>
    exact Drops.refl hq fun r' hr' heq => (huniq r' hr' heq).symm ▸ hx
  | last hx =>
    refine ⟨eraseP_sublist.map _, fun r' hr' => hq r' (mem_of_mem_eraseP hr'),
      fun r' hr' => ?_, fun r' hr' y hy => ?_⟩
    · obtain ⟨hr', hne⟩ := (mem_eraseKey hnd).1 hr'
      exact ⟨r', hr', rfl, fun y hy => ⟨hy, fun heq => absurd heq hne⟩⟩
    · by_cases heq : r'.number = r.number
      · obtain rfl := huniq r' hr' heq
        rw [hx, mem_singleton] at hy
        exact Or.inl ⟨rfl, hy⟩
      · exact Or.inr ⟨r', (mem_eraseKey hnd).2 ⟨hr', heq⟩, rfl, hy⟩
  | shortened ob hnum hpos hperm =>
    obtain ⟨hobnd, hmem⟩ :=
      (ObjectBlock.Dropped.shortened ob hnum hpos hperm).mem_responses (hq r hr).nodup
    have hin : ∀ r', r' ∈ updateKey Rexent.number r.number (fun e => { e with block := ob }) s.rexmitq ↔
        r' ∈ s.rexmitq ∧ r'.number ≠ r.number ∨ r' = { r with block := ob } := by
      intro r'
      rw [mem_updateKey hnd]
      refine or_congr_right ⟨fun ⟨a, ha, hak, heq⟩ => huniq a ha hak ▸ heq, fun heq => ?_⟩
      exact ⟨r, hr, rfl, heq⟩
    refine ⟨?_, fun r' hr' => ?_, fun r' hr' => ?_, fun r' hr' y hy => ?_⟩
    · have hkeys : (updateKey Rexent.number r.number (fun e => { e with block := ob })
          s.rexmitq).map Rexent.number = s.rexmitq.map Rexent.number :=
        map_updateKey fun _ _ => hnum
      exact hkeys ▸ Sublist.refl _
    · rcases (hin r').1 hr' with ⟨hr', -⟩ | rfl
      · exact hq r' hr'
      · exact ⟨hobnd, hpos⟩
    · rcases (hin r').1 hr' with ⟨hr', hne⟩ | rfl
      · exact ⟨r', hr', rfl, fun y hy => ⟨hy, fun heq => absurd heq hne⟩⟩
      · exact ⟨r, hr, hnum, fun y hy => ⟨((hmem y).1 hy).1, fun _ => ((hmem y).1 hy).2⟩⟩
    · by_cases heq : r'.number = r.number
      · obtain rfl := huniq r' hr' heq
        by_cases hyx : y = x
        · exact Or.inl ⟨rfl, hyx⟩
        · exact Or.inr ⟨_, (hin _).2 (Or.inr rfl), hnum, (hmem y).2 ⟨hy, hyx⟩⟩
      · exact Or.inr ⟨r', (hin r').2 (Or.inl ⟨hr', heq⟩), rfl, hy⟩

end Drops

open List

/-- The neighbours that were asked to acknowledge each packet, and those that have acknowledged it or
have been set down since. -/
structure Ledger where
  asked : List (ℕ × List ℤ)
  cleared : List (ℕ × ℤ)

/-- The neighbours that are set down in the course of an event. -/
def setDown (calls : List Upcall) : List ℤ :=
  calls.filterMap fun u => match u with
    | .linkDown x => some x
    | _ => none

/-- An event in the state `s` that makes the calls `calls`. An acknowledgement counts if the packet has
been made. -/
def Ledger.record (s : ImepAgent) (e : ImepEvent) (calls : List Upcall) (L : Ledger) : Ledger :=
  let L := match e with
    | .send _ =>
      if s.biLinks.length % 32 > 0 then { L with asked := (s.controlSequence + 1, s.biLinks) :: L.asked }
      else L
    | .recv src (.ack number) =>
      if number ≤ s.controlSequence then { L with cleared := (number, src) :: L.cleared } else L
    | _ => L
  { L with cleared := L.cleared ++ (setDown calls).flatMap fun x => L.asked.map fun a => (a.1, x) }

/-- The agent with its ledger. -/
def imepLedger : Machine (ImepAgent × Ledger) ImepEvent (List Upcall) where
  step sL e := (imep.step sL.1 e).map fun r => ((r.1, sL.2.record sL.1 e r.2), r.2)

/-- A packet that is no longer in the queue has been cleared by all neighbours that were asked. -/
def KeepsAsking (s : ImepAgent) (L : Ledger) : Prop :=
  ∀ a ∈ L.asked, (∀ r ∈ s.rexmitq, r.number ≠ a.1) → ∀ x ∈ a.2, (a.1, x) ∈ L.cleared

/-- The event is that the timer fires. -/
def Fires (s : ImepAgent) : ImepEvent → Prop
  | .rexmitTimer => s.rexmitTimer = some s.now
  | _ => False

/-- If the timer fires when the transmissions of the packet in front are exhausted, all its neighbours
left are set down and it leaves the queue. -/
def GivesUp (s : ImepAgent) (e : ImepEvent) (s' : ImepAgent) (calls : List Upcall) : Prop :=
  Fires s e → ∀ r ∈ s.rexmitq.head?, r.rexmitsLeft = 0 →
    (∀ x ∈ r.block.responses, x ∈ setDown calls) ∧ ∀ r' ∈ s'.rexmitq, r'.number ≠ r.number

/-- What the retransmission queue is for, at an event in a state. -/
def Reliable (sL : ImepAgent × Ledger) (e : ImepEvent) : Prop :=
  ∀ out ∈ imepLedger.step sL e, KeepsAsking out.1.1 out.1.2 ∧ GivesUp sL.1 e out.1.1 out.2

instance (s : ImepAgent) (L : Ledger) : Decidable (KeepsAsking s L) :=
  inferInstanceAs (Decidable (∀ a ∈ L.asked, _))

instance (s : ImepAgent) : ∀ e, Decidable (Fires s e)
  | .rexmitTimer => inferInstanceAs (Decidable (_ = _))
  | .tick _ | .send _ | .recv _ _ | .undeliverable _ | .purge _ | .incomingTimer => isFalse id

instance (s : ImepAgent) (e : ImepEvent) (s' : ImepAgent) (calls : List Upcall) :
    Decidable (GivesUp s e s' calls) :=
  inferInstanceAs (Decidable (Fires s e → ∀ r ∈ s.rexmitq.head?, _))

instance (sL : ImepAgent × Ledger) (e : ImepEvent) : Decidable (Reliable sL e) :=
  inferInstanceAs (Decidable (∀ out ∈ imepLedger.step sL e, _))

/-- The link to `x` is set down by `purgeLink`. -/
def LosesBi (s : ImepAgent) (x : ℤ) : Prop :=
  ∃ l ∈ s.findLink x, l.isBi ∧ (l.inExpire < s.now ∨ l.outExpire < s.now)

/-- No search of a response list finds a neighbour behind its end, a response list has less than 32
neighbours, an acknowledgement meets no other packet with the same sequence number, and a packet whose
transmissions are exhausted has one neighbour left. -/
def Tidy (s : ImepAgent) : ImepEvent → Prop
  | .send _ => s.biLinks.length < 32 ∨ s.biLinks.length % 32 = 0
  | .recv src (.ack number) =>
    ∀ r ∈ findKey Rexent.sequence (number % 256) s.rexmitq, r.number = number ∧ r.block.Clean src
  | .undeliverable x => (s.findLink x).isSome → ∀ r ∈ s.rexmitq, r.block.Clean x
  | .purge x => LosesBi s x → ∀ r ∈ s.rexmitq, r.block.Clean x
  | .rexmitTimer =>
    Fires s .rexmitTimer → ∀ r ∈ s.rexmitq.head?, r.rexmitsLeft = 0 →
      r.block.numResponses = 1 ∧ ∀ r' ∈ s.rexmitq, r'.block.Clean (r.block.resp 0)
  | _ => True

instance (x : ℤ) (ob : ObjectBlock) : Decidable (ob.Clean x) := inferInstanceAs (Decidable (_ ∨ _))

instance (s : ImepAgent) (x : ℤ) : Decidable (LosesBi s x) :=
  inferInstanceAs (Decidable (∃ l ∈ s.findLink x, _))

instance (s : ImepAgent) : ∀ e, Decidable (Tidy s e)
  | .tick _ => isTrue trivial
  | .send _ => inferInstanceAs (Decidable (_ ∨ _))
  | .recv src (.ack number) => inferInstanceAs
    (Decidable (∀ r ∈ findKey Rexent.sequence (number % 256) s.rexmitq,
      r.number = number ∧ r.block.Clean src))
  | .recv _ .beacon => isTrue trivial
  | .recv _ .hello => isTrue trivial
  | .recv _ (.object _) => isTrue trivial
  | .undeliverable x => inferInstanceAs
    (Decidable ((s.findLink x).isSome → ∀ r ∈ s.rexmitq, r.block.Clean x))
  | .purge x => inferInstanceAs (Decidable (LosesBi s x → ∀ r ∈ s.rexmitq, r.block.Clean x))
  | .rexmitTimer => inferInstanceAs
    (Decidable (Fires s .rexmitTimer → ∀ r ∈ s.rexmitq.head?, r.rexmitsLeft = 0 →
      r.block.numResponses = 1 ∧ ∀ r' ∈ s.rexmitq, r'.block.Clean (r.block.resp 0)))
  | .incomingTimer => isTrue trivial

/-- What the status of a link is read from. -/
def ImepLink.status (l : ImepLink) : ℤ × Bool × Bool := (l.index, l.linkIn, l.linkOut)

/-- The invariant of the links and the retransmission queue. -/
structure ImepAgent.Sound (s : ImepAgent) : Prop where
  links : (s.links.map ImepLink.index).Nodup
  numbers : (s.rexmitq.map Rexent.number).Nodup
  made : ∀ r ∈ s.rexmitq, r.number ≤ s.controlSequence
  good : ∀ r ∈ s.rexmitq, GoodEntry r
  bi : ∀ r ∈ s.rexmitq, ∀ x ∈ r.block.responses, (x, true, true) ∈ s.links.map ImepLink.status

/-- A neighbour that was asked has been cleared or is still in the response list. -/
def Asking (q : List Rexent) (L : Ledger) : Prop :=
  ∀ a ∈ L.asked, ∀ x ∈ a.2,
    (a.1, x) ∈ L.cleared ∨ ∃ r ∈ q, r.number = a.1 ∧ x ∈ r.block.responses

section Ledger

variable {s s' : ImepAgent} {L L' : Ledger} {q q' : List Rexent} {x : ℤ}

theorem Asking.keepsAsking (h : Asking s.rexmitq L) : KeepsAsking s L := by
  intro a ha hgone x hx
  rcases h a ha x hx with hc | ⟨r, hr, hnum, -⟩
  · exact hc
  · exact absurd hnum (hgone r hr)

theorem Asking.mono (h : Asking q L) (ha : L'.asked = L.asked)
    (hc : ∀ p ∈ L.cleared, p ∈ L'.cleared) : Asking q L' := by
  intro a haL x hx
  rw [ha] at haL
  exact (h a haL x hx).imp_left (hc _)

theorem Asking.drops {P : ℕ → Prop} (h : Asking q L) (hd : Drops P x q q') (ha : L'.asked = L.asked)
    (hc : ∀ p ∈ L.cleared, p ∈ L'.cleared) (hx : ∀ a ∈ L.asked, P a.1 → (a.1, x) ∈ L'.cleared) :
    Asking q' L' := by
  intro a haL y hy
  rw [ha] at haL
  rcases h a haL y hy with hcl | ⟨r, hr, hnum, hmem⟩
  · exact Or.inl (hc _ hcl)
  · rcases hd.to_mem r hr y hmem with ⟨hP, rfl⟩ | ⟨r', hr', hnum', hmem'⟩
    · exact Or.inl (hx a haL (hnum ▸ hP))
    · exact Or.inr ⟨r', hr', hnum'.trans hnum, hmem'⟩

theorem Asking.of_perm (h : Asking q L) (hp : (q'.map Rexent.block).Perm (q.map Rexent.block)) :
    Asking q' L := by
  intro a ha x hx
  refine (h a ha x hx).imp_right fun ⟨r, hr, hnum, hmem⟩ => ?_
  obtain ⟨r', hr', heq⟩ := mem_map.1 (hp.mem_iff.2 (mem_map_of_mem hr))
  refine ⟨r', hr', ?_, heq ▸ hmem⟩
  rw [Rexent.number, heq]
  exact hnum

theorem record_cleared (e : ImepEvent) (calls : List Upcall) :
    ∀ p ∈ L.cleared, p ∈ (L.record s e calls).cleared := by
  intro p hp
  refine mem_append_left _ ?_
  split
  · split_ifs
    · exact hp
    · exact hp
  · split_ifs
    · exact mem_cons_of_mem _ hp
    · exact hp
  · exact hp

theorem record_ack {number : ℕ} (h : number ≤ s.controlSequence) (calls : List Upcall) :
    (number, x) ∈ (L.record s (.recv x (.ack number)) calls).cleared := by
  refine mem_append_left _ ?_
  simp only [if_pos h]
  exact mem_cons_self

theorem record_setDown (e : ImepEvent) {calls : List Upcall} (hx : x ∈ setDown calls) :
    ∀ a ∈ (L.record s e calls).asked, (a.1, x) ∈ (L.record s e calls).cleared := by
  intro a ha
  exact mem_append_right _ (mem_flatMap.2 ⟨x, hx, mem_map.2 ⟨a, ha, rfl⟩⟩)

theorem setDown_append (l l' : List Upcall) : setDown (l ++ l') = setDown l ++ setDown l' :=
  filterMap_append

end Ledger

end Ns2.Imep
