import Ns2.Imep.ObjectInput

/-! The incoming timer: the holes that are due are retired, and the packets behind them passed on. -/

namespace Ns2.Imep

open List

section Least

/-- The least of the numbers, 0 if there is none but 0. -/
def leastDue (l : List ℚ) (a : ℚ) : ℚ :=
  l.foldl (fun min e => if min = 0 ∨ (e ≠ 0 ∧ e < min) then e else min) a

theorem leastDue_spec (l : List ℚ) (a : ℚ) : (leastDue l a = a ∨ leastDue l a ∈ l) ∧
    (a ≠ 0 → leastDue l a ≠ 0 ∧ leastDue l a ≤ a) ∧
    ∀ e ∈ l, e ≠ 0 → leastDue l a ≠ 0 ∧ leastDue l a ≤ e := by
  induction l generalizing a with
  | nil => exact ⟨Or.inl rfl, fun ha => ⟨ha, le_refl a⟩, nofun⟩
  | cons e l ih =>
    rw [show leastDue (e :: l) a = leastDue l (if a = 0 ∨ (e ≠ 0 ∧ e < a) then e else a) from rfl]
    by_cases he : a = 0 ∨ (e ≠ 0 ∧ e < a)
    · rw [if_pos he]
      obtain ⟨hmem, hle, hall⟩ := ih e
      refine ⟨Or.inr ?_, fun ha => ?_, fun e' he' hne => ?_⟩
      · rcases hmem with hmem | hmem
        · rw [hmem]
          exact mem_cons_self
        · exact mem_cons_of_mem _ hmem
      · obtain ⟨hne, hlt⟩ := he.resolve_left ha
        exact ⟨(hle hne).1, (hle hne).2.trans hlt.le⟩
      · rcases mem_cons.1 he' with rfl | he'
        · exact hle hne
        · exact hall e' he' hne
    · rw [if_neg he]
      obtain ⟨hmem, hle, hall⟩ := ih a
      obtain ⟨ha, hea⟩ := not_or.1 he
      refine ⟨hmem.imp_right (mem_cons_of_mem _), hle, fun e' he' hne => ?_⟩
      rcases mem_cons.1 he' with rfl | he'
      · exact ⟨(hle ha).1, (hle ha).2.trans (not_lt.1 fun hlt => hea ⟨hne, hlt⟩)⟩
      · exact hall e' he' hne

theorem Dstent.expire_eq (d : Dstent) : d.expire = leastDue (d.txents.map Txent.expire) 0 := by
  rw [leastDue, foldl_map]
  rfl

theorem getNextExpire_eq (q : List Dstent) : getNextExpire q = leastDue (q.map Dstent.expire) 0 := by
  rw [leastDue, foldl_map]
  rfl

theorem Dstent.expire_spec {d : Dstent} (h : ∀ t ∈ d.txents, 0 < t.expire) :
    (d.expire = 0 ∨ ∃ t ∈ d.txents, d.expire = t.expire) ∧
      ∀ t ∈ d.txents, d.expire ≠ 0 ∧ d.expire ≤ t.expire := by
  obtain ⟨hmem, -, hall⟩ := leastDue_spec (d.txents.map Txent.expire) 0
  rw [← Dstent.expire_eq] at hmem hall
  refine ⟨hmem.imp_right fun hm => ?_, fun t ht => hall _ (mem_map_of_mem ht) (h t ht).ne'⟩
  obtain ⟨t, ht, heq⟩ := mem_map.1 hm
  exact ⟨t, ht, heq.symm⟩

end Least

/-- Nothing of the queue is to be passed on, or its first packet is not yet due and does not follow the
last one. -/
def Idle (now : ℚ) (d : Dstent) : Prop :=
  (∀ t ∈ d.txents, now < t.expire) ∨ ∃ t ts, d.txents = t :: ts ∧ now < t.expire ∧
    d.seqno ≠ illegalSeq ∧ t.seqno ≠ (d.seqno + 1) % 256

/-- Why the first packet of a queue is passed on, with the sequence number that is kept. -/
inductive Offers (now : ℚ) (d : Dstent) (t : Txent) (ts : List Txent) : ℕ → Prop
  | retired : t.expire ≤ now → Offers now d t ts t.seqno
  | early : d.seqno = illegalSeq → (∃ u ∈ ts, u.expire ≤ now) → Offers now d t ts illegalSeq
  | next : d.seqno ≠ illegalSeq → t.seqno = (d.seqno + 1) % 256 → Offers now d t ts t.seqno

/-- The first packet `t` of the queue of `x` leaves the queues `q`. -/
structure Taken (now : ℚ) (x : ℤ) (t : Txent) (q q' : List Dstent) (ts : List Txent) (seqno : ℕ) :
    Prop where
  queue : (dstOf q x).txents = t :: ts
  offers : Offers now (dstOf q x) t ts seqno
  self : dstOf q' x = { dstOf q x with txents := ts, seqno := seqno }
  others : ∀ y, y ≠ x → (dstOf q' y).txents = (dstOf q y).txents ∧
    ((dstOf q' y).seqno = (dstOf q y).seqno ∨ (dstOf q' y).seqno = illegalSeq)
  addrs : q'.map Dstent.ipaddr = q.map Dstent.ipaddr
  total : (q'.map fun d => d.txents.length).sum + 1 = (q.map fun d => d.txents.length).sum

/-- No packet leaves the queues. -/
structure AllIdle (now : ℚ) (q q' : List Dstent) : Prop where
  idle : ∀ x, Idle now (dstOf q x)
  self : ∀ x, dstOf q' x = { dstOf q x with seqno := illegalSeq }
  addrs : q'.map Dstent.ipaddr = q.map Dstent.ipaddr

section Rounds

variable {now : ℚ} {d : Dstent} {q q' : List Dstent} {x : ℤ} {t : Txent} {ts : List Txent} {seqno : ℕ}

theorem dstOf_cons (d : Dstent) (q : List Dstent) (x : ℤ) :
    dstOf (d :: q) x = if d.ipaddr = x then d else dstOf q x := by
  rw [dstOf, findKey_cons]
  split_ifs
  · rfl
  · rfl

theorem AllIdle.cons (h : AllIdle now q q') (hd : Idle now d) :
    AllIdle now (d :: q) ({ d with seqno := illegalSeq } :: q') := by
  refine ⟨fun x => ?_, fun x => ?_, ?_⟩
  · rw [dstOf_cons]
    split_ifs
    · exact hd
    · exact h.idle x
  · rw [dstOf_cons, dstOf_cons]
    split_ifs
    · rfl
    · exact h.self x
  · rw [map_cons, map_cons, h.addrs]

theorem Taken.cons (h : Taken now x t q q' ts seqno) (hn : ((d :: q).map Dstent.ipaddr).Nodup) :
    Taken now x t (d :: q) ({ d with seqno := illegalSeq } :: q') ts seqno := by
  have hx : d.ipaddr ≠ x := fun hdx => by
    refine (nodup_cons.1 hn).1 ?_
    cases hf : findKey Dstent.ipaddr x q with
    | none =>
      have := h.queue
      rw [dstOf, hf] at this
      cases this
    | some e =>
      obtain ⟨he, hex⟩ := mem_of_findKey hf
      exact mem_map.2 ⟨e, he, hex.trans hdx.symm⟩
  have hdx : dstOf (d :: q) x = dstOf q x := by rw [dstOf_cons, if_neg hx]
  refine ⟨hdx ▸ h.queue, hdx ▸ h.offers, ?_, fun y hy => ?_, ?_, ?_⟩
  · rw [hdx, dstOf_cons, if_neg (by exact hx)]
    exact h.self
  · rw [dstOf_cons, dstOf_cons]
    split_ifs
    · exact ⟨rfl, Or.inr rfl⟩
    · exact h.others y hy
  · rw [map_cons, map_cons, h.addrs]
  · rw [map_cons, map_cons, sum_cons, sum_cons, ← h.total]
    exact Nat.add_assoc _ _ _

theorem taken_head (hd : d.txents = t :: ts) (ho : Offers now d t ts seqno) :
    Taken now d.ipaddr t (d :: q) ({ d with txents := ts, seqno := seqno } :: q) ts seqno := by
  have hself : dstOf (d :: q) d.ipaddr = d := by rw [dstOf_cons, if_pos rfl]
  refine ⟨hself.symm ▸ hd, hself.symm ▸ ho, ?_, fun y hy => ?_, rfl, ?_⟩
  · rw [hself, dstOf_cons, if_pos (by rfl)]
  · rw [dstOf_cons, dstOf_cons]
    rw [if_neg (Ne.symm hy), if_neg (Ne.symm hy)]
    exact ⟨rfl, Or.inl rfl⟩
  · rw [map_cons, map_cons, sum_cons, sum_cons, hd, length_cons]
    dsimp only
    omega

theorem getNextPacket_cons (now : ℚ) (q : List Dstent) (hd : d.txents = t :: ts) (he : d.expire ≠ 0) :
    getNextPacket now (d :: q) =
      if d.expire > now ∧ d.seqno = illegalSeq then (getNextPacket now q).map fun r => (r.1, d :: r.2)
      else if t.expire ≤ now then
        some (some (d.ipaddr, t), { d with txents := ts, seqno := t.seqno } :: q)
      else if d.seqno ≠ illegalSeq ∧ t.seqno ≠ (d.seqno + 1) % 256 then
        (getNextPacket now q).map fun r => (r.1, { d with seqno := illegalSeq } :: r.2)
      else
        some (some (d.ipaddr, t),
          { d with txents := ts, seqno := if d.seqno ≠ illegalSeq then t.seqno else d.seqno } :: q) := by
  rw [getNextPacket, hd]
  exact if_neg he

theorem getNextPacket_spec (now : ℚ) (hn : (q.map Dstent.ipaddr).Nodup)
    (hpos : ∀ d ∈ q, ∀ t ∈ d.txents, 0 < t.expire) :
    (∃ q', getNextPacket now q = some (none, q') ∧ AllIdle now q q') ∨
      ∃ x t q' ts seqno, getNextPacket now q = some (some (x, t), q') ∧ Taken now x t q q' ts seqno := by
  induction q with
  | nil =>
    refine Or.inl ⟨[], rfl, fun x => Or.inl nofun, fun x => rfl, rfl⟩
  | cons d q ih =>
    have hskip : ∀ q', q' = { d with seqno := illegalSeq } → Idle now d →
        getNextPacket now (d :: q) = (getNextPacket now q).map (fun r => (r.1, q' :: r.2)) →
        (∃ q', getNextPacket now (d :: q) = some (none, q') ∧ AllIdle now (d :: q) q') ∨
          ∃ x t q' ts seqno, getNextPacket now (d :: q) = some (some (x, t), q') ∧
            Taken now x t (d :: q) q' ts seqno := by
      rintro _ rfl hidle heq
      rcases ih (nodup_cons.1 hn).2 fun e he => hpos e (mem_cons_of_mem _ he) with
        ⟨q', hq', hall⟩ | ⟨x, t, q', ts, seqno, hq', htaken⟩
      · exact Or.inl ⟨_, by rw [heq, hq']; rfl, hall.cons hidle⟩
      · exact Or.inr ⟨x, t, _, ts, seqno, by rw [heq, hq']; rfl, htaken.cons hn⟩
    obtain ⟨hmem, hall⟩ := Dstent.expire_spec (hpos d mem_cons_self)
    cases htx : d.txents with
    | nil =>
      refine hskip _ rfl (Or.inl ?_) ?_
      · rw [htx]
        exact nofun
      · rw [getNextPacket, htx]
    | cons t ts =>
      have ht : t ∈ d.txents := by rw [htx]; exact mem_cons_self
      have hstep := getNextPacket_cons now q htx (hall t ht).1
      by_cases hwait : d.expire > now ∧ d.seqno = illegalSeq
      · rw [if_pos hwait] at hstep
        refine hskip d ?_ (Or.inl fun u hu => hwait.1.trans_le (hall u hu).2) hstep
        obtain ⟨a, b, c⟩ := d
        exact congrArg (Dstent.mk a b) hwait.2
      · rw [if_neg hwait] at hstep
        by_cases hdue : t.expire ≤ now
        · rw [if_pos hdue] at hstep
          exact Or.inr ⟨_, t, _, ts, _, hstep, taken_head htx (.retired hdue)⟩
        · rw [if_neg hdue] at hstep
          by_cases hgap : d.seqno ≠ illegalSeq ∧ t.seqno ≠ (d.seqno + 1) % 256
          · rw [if_pos hgap] at hstep
            exact hskip _ rfl (Or.inr ⟨t, ts, htx, not_le.1 hdue, hgap⟩) hstep
          · rw [if_neg hgap] at hstep
            refine Or.inr ⟨_, t, _, ts, _, hstep, taken_head htx ?_⟩
            by_cases hill : d.seqno = illegalSeq
            · rw [if_neg (not_not.2 hill), hill]
              refine .early hill ?_
              obtain ⟨u, hu, heq⟩ := hmem.resolve_left (hall t ht).1
              have hule : u.expire ≤ now := heq ▸ not_lt.1 fun hlt => hwait ⟨hlt, hill⟩
              rw [htx] at hu
              rcases mem_cons.1 hu with rfl | hu
              · exact absurd hule hdue
              · exact ⟨u, hu, hule⟩
            · rw [if_pos hill]
              exact .next hill (not_not.1 fun hne => hgap ⟨hill, hne⟩)

end Rounds

namespace ImepAgent

/-- The queue and the link of a neighbour in the course of the loop: `taken` have been passed on. -/
structure RetiringAt (now : ℚ) (q : List Txent) (passed : List ℕ) (arrived : List (ℕ × ℚ))
    (last : Option ℕ) (d : Dstent) (taken : List Txent) : Prop where
  queue : q = taken ++ d.txents
  tracks : Tracks ((taken.map Txent.number).reverse ++ passed) arrived last d.txents
  seqno : d.seqno = illegalSeq ∨ ∃ t ∈ taken, t.expire ≤ now ∧ IsHead q t ∧ d.seqno = t.seqno
  due : ∀ t ∈ taken, ¬IsHead q t ∨ ∃ e ∈ q, t.number ≤ e.number ∧ e.expire ≤ now

/-- The state in the course of the loop of `handlerIncomingTimer`, which begins in the state `s`. -/
structure Retiring (P : ℤ → List ℕ) (A : ℤ → List (ℕ × ℚ)) (s s' : ImepAgent) : Prop where
  now : s'.now = s.now
  timer : s'.incomingTimer = none
  addrs : s'.incomingQ.map Dstent.ipaddr = s.incomingQ.map Dstent.ipaddr
  indices : s'.links.map ImepLink.index = s.links.map ImepLink.index
  inOf : ∀ x, s'.inOf x = s.inOf x
  each : ∀ x, ∃ taken, passedOn x s'.rtagent = taken.map Txent.number ∧
    RetiringAt s.now (s.queueOf x) (P x) (A x) (s'.lastOf x) (dstOf s'.incomingQ x) taken

variable {s s' : ImepAgent} {x y : ℤ} {P : ℤ → List ℕ} {A : ℤ → List (ℕ × ℚ)}

theorem Ordered.retiring (h : Ordered s P A) (hcalls : ∀ y, passedOn y s.rtagent = []) :
    Retiring P A s { s with incomingTimer := none } :=
  ⟨rfl, rfl, rfl, rfl, fun _ => rfl, fun x => ⟨[], hcalls x, rfl, h.tracks x, Or.inl (h.idle x), nofun⟩⟩

section At

variable {now : ℚ} {q taken : List Txent} {passed : List ℕ} {arrived : List (ℕ × ℚ)} {last : Option ℕ}
  {d : Dstent} {t : Txent} {ts : List Txent} {seqno k : ℕ}

section

variable (h : RetiringAt now q passed arrived last d taken)
include h

theorem RetiringAt.exists_last (hd : d.txents ≠ []) :
    ∃ b, last = some b := by
  have hne : (taken.map Txent.number).reverse ++ passed ≠ [] := fun hnil => hd (h.tracks.fresh hnil).1
  obtain ⟨k, rest, hk⟩ := exists_cons_of_ne_nil hne
  exact ⟨_, (h.tracks.latest k (by rw [hk]; rfl)).1⟩

theorem RetiringAt.isHead (hd : d.txents = t :: ts) :
    IsHead q t := by
  have hne : (taken.map Txent.number).reverse ++ passed ≠ [] := fun hnil => by
    have := (h.tracks.fresh hnil).1
    rw [hd] at this
    cases this
  obtain ⟨k, rest, hk⟩ := exists_cons_of_ne_nil hne
  obtain ⟨-, hw, hgap⟩ := h.tracks.latest k (by rw [hk]; rfl)
  have ht : t ∈ d.txents := by rw [hd]; exact mem_cons_self
  have hkt := (hw.ahead t ht).1
  have hkt' := hgap t ht
  intro u hu heq
  rw [h.queue] at hu
  rcases mem_append.1 hu with hu | hu
  · have hmem : u.number ∈ k :: rest :=
      hk ▸ mem_append_left _ (mem_reverse.2 (mem_map_of_mem hu))
    have hle : u.number ≤ k := by
      rcases mem_cons.1 hmem with heq' | hmem
      · exact heq'.le
      · exact (rel_of_pairwise_cons (hk ▸ h.tracks.decreasing) hmem).le
    omega
  · rw [hd] at hu
    rcases mem_cons.1 hu with rfl | hu
    · omega
    · have := rel_of_pairwise_cons (hd ▸ hw.sorted) hu
      omega

theorem RetiringAt.not_next (hw : Waiting k q)
    (hd : d.txents = t :: ts) (hlegal : d.seqno ≠ illegalSeq) : t.seqno ≠ (d.seqno + 1) % 256 := by
  intro hseq
  obtain ⟨u, hu, -, -, huseq⟩ := h.seqno.resolve_left hlegal
  have huq : u ∈ q := by
    rw [h.queue]
    exact mem_append_left _ hu
  have htq : t ∈ q := by
    rw [h.queue, hd]
    exact mem_append_right _ mem_cons_self
  have hu' := hw.ahead u huq
  have ht' := hw.ahead t htq
  rw [huseq, hw.seqno u huq, hw.seqno t htq] at hseq
  exact h.isHead hd u huq (by omega)

theorem RetiringAt.exists_due
    (hw : Waiting k q) (hd : d.txents = t :: ts) (ho : Offers now d t ts seqno) :
    ∃ e ∈ q, t.number ≤ e.number ∧ e.expire ≤ now := by
  have hmem : ∀ u ∈ t :: ts, u ∈ q := fun u hu => by
    rw [h.queue, hd]
    exact mem_append_right _ hu
  have hsorted : (t :: ts).Pairwise fun t u => t.number < u.number :=
    hd ▸ (h.queue ▸ hw).of_append.sorted
  cases ho with
  | retired hdue => exact ⟨t, hmem t mem_cons_self, le_rfl, hdue⟩
  | early _ hu =>
    obtain ⟨u, hu, hdue⟩ := hu
    exact ⟨u, hmem u (mem_cons_of_mem _ hu), (rel_of_pairwise_cons hsorted hu).le, hdue⟩
  | next hlegal hseq => exact absurd hseq (h.not_next hw hd hlegal)

theorem RetiringAt.not_due (hidle : Idle now d)
    (hw : Waiting k q) (hholes : HolesInOrder now q) : ∀ t ∈ d.txents, now < t.expire := by
  rcases hidle with hall | ⟨t, ts, hd, hnow, hlegal, -⟩
  · exact hall
  · obtain ⟨u, hu, hdue, hhead, -⟩ := h.seqno.resolve_left hlegal
    have hq : q = taken ++ t :: ts := hd ▸ h.queue
    have hsorted := pairwise_append.1 (hq ▸ hw.sorted)
    have hut : u.number < t.number := hsorted.2.2 u hu t mem_cons_self
    intro v hv
    rw [hd] at hv
    rcases mem_cons.1 hv with rfl | hvts
    · exact hnow
    · refine hholes u (hq ▸ mem_append_left _ hu) hdue hhead t ?_ hut (h.isHead hd) hnow v ?_
        (rel_of_pairwise_cons hsorted.2.1 hvts)
      · exact hq ▸ mem_append_right _ mem_cons_self
      · exact hq ▸ mem_append_right _ hv

theorem RetiringAt.take (hw : Waiting k q)
    (hd : d.txents = t :: ts) (ho : Offers now d t ts seqno) {more rest : List Txent}
    (hts : ts = more ++ rest) (hnum : more.map Txent.number = range' (t.number + 1) more.length)
    {last' : Option ℕ} (hlast : last' = some ((t.number + more.length) % 256))
    (hrest : ∀ u ∈ rest, t.number + more.length + 1 < u.number) {d' : Dstent} (hd' : d'.txents = rest)
    (hseq : d'.seqno = seqno) : RetiringAt now q passed arrived last' d' (taken ++ t :: more) := by
  have hhead := h.isHead hd
  have htq : t ∈ q := by
    rw [h.queue, hd]
    exact mem_append_right _ mem_cons_self
  have hdue := h.exists_due hw hd ho
  have hqueue : q = (taken ++ t :: more) ++ d'.txents := by
    rw [h.queue, hd, hts, hd', append_assoc]
    rfl
  refine ⟨hqueue, ?_, ?_, fun u hu => ?_⟩
  · have hnums : (taken ++ t :: more).map Txent.number =
        taken.map Txent.number ++ range' t.number (more.length + 1) := by
      rw [map_append, map_cons, hnum]
      rfl
    rw [hnums, reverse_append, append_assoc, hd']
    have hpast : ∀ m ∈ (taken.map Txent.number).reverse ++ passed, m < t.number :=
      lt_of_head h.tracks.decreasing fun j hj =>
        ((h.tracks.latest j hj).2.1.ahead t (by rw [hd]; exact mem_cons_self)).1
    have hwrest : Waiting k rest := by
      rw [hqueue, hd'] at hw
      exact hw.of_append
    refine tracks_of_chain h.tracks.decreasing hpast hlast ?_ hrest fun u hu => ?_
    · have hkt := (hw.ahead t htq).1
      refine hwrest.mono (by omega) fun u hu => ?_
      have := hrest u hu
      omega
    · refine h.tracks.arrived u ?_
      rw [hd, hts]
      exact mem_cons_of_mem _ (mem_append_right _ hu)
  · rw [hseq]
    cases ho with
    | retired hdue => exact Or.inr ⟨t, by simp, hdue, hhead, rfl⟩
    | early hill _ => exact Or.inl rfl
    | next hlegal heq => exact absurd heq (h.not_next hw hd hlegal)
  · rcases mem_append.1 hu with hu | hu
    · exact h.due u hu
    · rcases mem_cons.1 hu with rfl | hu
      · exact Or.inr hdue
      · left
        have hu' : u.number ∈ range' (t.number + 1) more.length := hnum ▸ mem_map_of_mem hu
        have hpred : u.number - 1 ∈ (t :: more).map Txent.number := by
          rw [map_cons, hnum]
          change u.number - 1 ∈ range' t.number (more.length + 1)
          exact mem_range'_1.2 (by have := mem_range'_1.1 hu'; omega)
        obtain ⟨v, hv, hvu⟩ := mem_map.1 hpred
        intro hhead
        refine hhead v ?_ (by have := mem_range'_1.1 hu'; omega)
        rw [hqueue]
        exact mem_append_left _ (mem_append_right _ hv)

end

end At

theorem Ordered.waiting (h : Ordered s P A) (hne : s.queueOf x ≠ []) :
    ∃ k, Waiting k (s.queueOf x) ∧ (s.lastOf x).isSome := by
  cases hp : P x with
  | nil => exact absurd ((h.tracks x).fresh hp).1 hne
  | cons k rest =>
    obtain ⟨hlast, hw, -⟩ := (h.tracks x).latest k (by rw [hp]; rfl)
    exact ⟨k, hw, by rw [hlast]; rfl⟩

theorem Retiring.queue_pos (hr : Retiring P A s s') (h : Ordered s P A) :
    ∀ d ∈ s'.incomingQ, ∀ t ∈ d.txents, 0 < t.expire := by
  intro d hd t ht
  have hdst : dstOf s'.incomingQ d.ipaddr = d := by
    rw [dstOf, findKey_of_mem (hr.addrs ▸ h.addrs) hd]
    rfl
  obtain ⟨taken, -, hat⟩ := hr.each d.ipaddr
  rw [hdst] at hat
  exact (hat.tracks.expire_le (h.times d.ipaddr) t ht).1

/-- A round of the loop passes on the first packet of a queue, with those that follow it. -/
theorem Retiring.round (hr : Retiring P A s s') (h : Ordered s P A)
    (hsafe : ∀ x, TimerWrapSafe s.now (s.queueOf x)) {t : Txent} {q' : List Dstent} {ts : List Txent}
    {seqno : ℕ} (ht : Taken s'.now x t s'.incomingQ q' ts seqno) : (s'.findLink x).isSome ∧
      ∀ s₁, s₁ = (({ s' with incomingQ := q' }.notify (.holeRetired x)).setLastSeq x t.seqno).notify
        (.object x t.number) → s₁.buffered < s'.buffered ∧
          (s₁.deliverInSequence x s₁.buffered).buffered ≤ s₁.buffered ∧
            Retiring P A s (s₁.deliverInSequence x s₁.buffered) := by
  obtain ⟨taken, hcalls, hat⟩ := hr.each x
  have hmem : ∀ u ∈ t :: ts, u ∈ s.queueOf x := fun u hu => by
    rw [hat.queue, ht.queue]
    exact mem_append_right _ hu
  have htq := hmem t mem_cons_self
  obtain ⟨k, hw, -⟩ := h.waiting (ne_nil_of_mem htq)
  have hoffers : Offers s.now (dstOf s'.incomingQ x) t ts seqno := hr.now ▸ ht.offers
  obtain ⟨b, hb⟩ := hat.exists_last (by rw [ht.queue]; exact cons_ne_nil _ _)
  obtain ⟨l, hl, -, -⟩ := lastOf_eq_some hb
  refine ⟨by rw [hl]; rfl, fun s₁ hs₁ => ?_⟩
  have hbuf : s₁.buffered + 1 = s'.buffered := by
    rw [hs₁]
    exact ht.total
  have hlast₁ : s₁.lastOf x = some (t.number % 256) := by
    rw [hs₁]
    refine (lastOf_setLastSeq (s := { s' with incomingQ := q' }.notify (.holeRetired x)) hb _).trans ?_
    rw [hw.seqno t htq, Nat.mod_mod]
  have hqueue₁ : s₁.queueOf x = ts := by
    rw [hs₁]
    exact congrArg Dstent.txents ht.self
  have hwts : Waiting t.number ts := by
    have hall : s.queueOf x = taken ++ t :: ts := ht.queue ▸ hat.queue
    exact (hall ▸ hw).of_append.tail
  have hwrap : WrapSafe t.number ts := by
    intro u hu hzero htu
    have huq := hmem u (mem_cons_of_mem _ hu)
    by_cases hhead : IsHead (s.queueOf x) u
    · have := hhead t htq
      refine ⟨u.number - 1, by omega, by omega, fun hin => ?_⟩
      obtain ⟨v, hv, hvu⟩ := mem_map.1 hin
      exact hhead v (hmem v (mem_cons_of_mem _ hv)) (by omega)
    · obtain ⟨e, he, hte, hdue⟩ := hat.exists_due hw ht.queue hoffers
      obtain ⟨m, hmu, hem, hm⟩ := hsafe x e he hdue u huq hzero hhead
      refine ⟨m, hmu, by omega, fun hin => hm ?_⟩
      obtain ⟨v, hv, hvm⟩ := mem_map.1 hin
      exact mem_map.2 ⟨v, hmem v (mem_cons_of_mem _ hv), hvm⟩
  have hlen : (s₁.queueOf x).length ≤ s₁.buffered := length_dstOf_le x s₁.incomingQ
  obtain ⟨more, rest, hsplit, hnum, hlast, hdst, hrest, hrt, hk⟩ :=
    deliverInSequence_spec hlast₁ (hqueue₁.symm ▸ hwts) (hqueue₁.symm ▸ hwrap) hlen
  have hset : OthersKept x s' (s'.setLastSeq x t.seqno) := othersKept_setLastSeq x _
  have hcalls₁ : s₁.rtagent = s'.rtagent ++ [.holeRetired x] ++ [.object x t.number] := by
    rw [hs₁]
    rfl
  refine ⟨by omega, hk.buffered, ?_, ?_, ?_, ?_, fun y => ?_, fun y => ?_⟩
  · rw [hk.now, hs₁]
    exact hr.now
  · rw [hk.timer, hs₁]
    exact hr.timer
  · rw [hk.addrs, hs₁]
    exact ht.addrs.trans hr.addrs
  · rw [hk.indices, hs₁]
    exact hset.indices.trans hr.indices
  · rw [hk.inOf, hs₁]
    exact (hset.inOf y).trans (hr.inOf y)
  · by_cases hy : y = x
    · subst hy
      refine ⟨taken ++ t :: more, ?_, ?_⟩
      · rw [hrt, passedOn_objects_self, hcalls₁, passedOn_object_self, passedOn_append, hcalls,
          map_append, map_cons]
        simp [passedOn]
      · refine hat.take hw ht.queue hoffers (hqueue₁ ▸ hsplit) hnum hlast hrest
          (congrArg Dstent.txents hdst) ?_
        rw [hdst, hs₁]
        exact congrArg Dstent.seqno ht.self
    · obtain ⟨takeny, hcallsy, haty⟩ := hr.each y
      refine ⟨takeny, ?_, ?_⟩
      · rw [hrt, passedOn_objects_ne hy, hcalls₁, passedOn_object_ne hy, passedOn_append, hcallsy]
        simp [passedOn]
      · have hlasty : (s₁.deliverInSequence x s₁.buffered).lastOf y = s'.lastOf y := by
          rw [hk.last y hy, hs₁]
          exact hset.last y hy
        have hdsty : dstOf (s₁.deliverInSequence x s₁.buffered).incomingQ y = dstOf q' y := by
          rw [hk.dst y hy, hs₁]
          rfl
        obtain ⟨htx, hseq⟩ := ht.others y hy
        rw [hlasty, hdsty]
        refine ⟨htx ▸ haty.queue, htx ▸ haty.tracks, ?_, haty.due⟩
        rcases hseq with hseq | hseq
        · rw [hseq]
          exact haty.seqno
        · exact Or.inl hseq

theorem Retiring.retireHoles (h : Ordered s P A) (hsafe : ∀ x, TimerWrapSafe s.now (s.queueOf x))
    (hholes : ∀ x, HolesInOrder s.now (s.queueOf x)) (fuel : ℕ) (hr : Retiring P A s s')
    (hfuel : s'.buffered < fuel) : ∃ s'', s'.retireHoles fuel = some s'' ∧ Retiring P A s s'' ∧
      (∀ x, (dstOf s''.incomingQ x).seqno = illegalSeq) ∧ ∀ x, ∀ t ∈ s''.queueOf x, s.now < t.expire := by
  induction fuel generalizing s' with
  | zero => exact absurd hfuel (Nat.not_lt_zero _)
  | succ fuel ih =>
    rw [ImepAgent.retireHoles]
    rcases getNextPacket_spec s'.now (hr.addrs ▸ h.addrs) (hr.queue_pos h) with
      ⟨q', hq', hall⟩ | ⟨x, t, q', ts, seqno, hq', htaken⟩
    · rw [hq']
      refine ⟨_, rfl, ⟨hr.now, hr.timer, hall.addrs.trans hr.addrs, hr.indices, hr.inOf, fun x => ?_⟩,
        fun x => congrArg Dstent.seqno (hall.self x), fun x t ht => ?_⟩
      · obtain ⟨taken, hcalls, hat⟩ := hr.each x
        refine ⟨taken, hcalls, ?_⟩
        rw [hall.self x]
        exact ⟨hat.queue, hat.tracks, Or.inl rfl, hat.due⟩
      · have ht' : t ∈ (dstOf s'.incomingQ x).txents := congrArg Dstent.txents (hall.self x) ▸ ht
        obtain ⟨taken, -, hat⟩ := hr.each x
        obtain ⟨k, hw, -⟩ := h.waiting (x := x) fun hnil => by
          have hmem : t ∈ s.queueOf x := hat.queue ▸ mem_append_right _ ht'
          rw [hnil] at hmem
          cases hmem
        exact hat.not_due (hr.now ▸ hall.idle x) hw (hholes x) t ht'
    · rw [hq']
      obtain ⟨hfind, hround⟩ := hr.round h hsafe htaken
      obtain ⟨l, hl⟩ := Option.isSome_iff_exists.1 hfind
      obtain ⟨hlt, hle, hr'⟩ := hround _ rfl
      dsimp only
      rw [hl]
      exact ih hr' (by omega)

theorem Retiring.skips (hr : Retiring P A s s') (h : Ordered s P A) :
    ∀ m ∈ passedOn x s'.rtagent, m - 1 ∉ (passedOn x s'.rtagent).reverse ++ P x →
      ∃ p ∈ A x, m ≤ p.1 ∧ p.2 + maxRetransTime ≤ s.now := by
  obtain ⟨taken, hcalls, hat⟩ := hr.each x
  rw [hcalls]
  intro m hm hpred
  obtain ⟨t, ht, rfl⟩ := mem_map.1 hm
  have htq : t ∈ s.queueOf x := hat.queue ▸ mem_append_left _ ht
  obtain ⟨k, hw, -⟩ := h.waiting (ne_nil_of_mem htq)
  rcases hat.due t ht with hnot | ⟨e, he, hte, hdue⟩
  · have : ∃ u ∈ s.queueOf x, u.number + 1 = t.number := by simpa [IsHead] using hnot
    obtain ⟨u, hu, hut⟩ := this
    refine absurd (mem_append_left _ (mem_reverse.2 ?_)) hpred
    rw [hat.queue] at hu
    rcases mem_append.1 hu with hu | hu
    · exact mem_map.2 ⟨u, hu, by omega⟩
    · have hlt := (pairwise_append.1 (hat.queue ▸ hw.sorted)).2.2 t ht u hu
      omega
  · obtain ⟨p, hp, hpe, hexp⟩ := (h.tracks x).arrived e he
    exact ⟨p, hp, hpe ▸ hte, hexp ▸ hdue⟩

theorem ordered_handlerIncomingTimer (h : Ordered s P A) (hcalls : ∀ y, passedOn y s.rtagent = [])
    (hsafe : ∀ x, TimerWrapSafe s.now (s.queueOf x)) (hholes : ∀ x, HolesInOrder s.now (s.queueOf x)) :
    ∃ s', handlerIncomingTimer { s with incomingTimer := none } = some s' ∧ s'.now = s.now ∧
      Ordered s' (fun y => (passedOn y s'.rtagent).reverse ++ P y) A ∧
        ∀ x, ∀ m ∈ passedOn x s'.rtagent, m - 1 ∉ (passedOn x s'.rtagent).reverse ++ P x →
          ∃ p ∈ A x, m ≤ p.1 ∧ p.2 + maxRetransTime ≤ s.now := by
  obtain ⟨s', hs', hr, hidle, hlate⟩ :=
    (h.retiring hcalls).retireHoles h hsafe hholes (s.buffered + 1) (Nat.lt_succ_self _)
  have hskips := fun x => hr.skips (x := x) h
  have htracks : ∀ x, Tracks ((passedOn x s'.rtagent).reverse ++ P x) (A x) (s'.lastOf x) (s'.queueOf x) :=
    fun x => by
      obtain ⟨taken, hcalls, hat⟩ := hr.each x
      exact hcalls ▸ hat.tracks
  have hsub : ∀ x, ∀ t ∈ s'.queueOf x, t ∈ s.queueOf x := fun x t ht => by
    obtain ⟨taken, -, hat⟩ := hr.each x
    exact hat.queue ▸ mem_append_right _ ht
  have hdst : ∀ d ∈ s'.incomingQ, dstOf s'.incomingQ d.ipaddr = d := fun d hd => by
    rw [dstOf, findKey_of_mem (hr.addrs ▸ h.addrs) hd]
    rfl
  obtain ⟨hleast, -, hall⟩ := leastDue_spec (s'.incomingQ.map Dstent.expire) 0
  rw [← getNextExpire_eq] at hleast hall
  -- the time the timer is due at if anything is left
  have hnext : ∀ x, ∀ t ∈ s'.queueOf x,
      getNextExpire s'.incomingQ ≠ 0 ∧ getNextExpire s'.incomingQ ≤ t.expire := fun x t ht => by
    cases hf : findKey Dstent.ipaddr x s'.incomingQ with
    | none =>
      rw [queueOf, dstOf, hf] at ht
      cases ht
    | some d =>
      rw [queueOf, dstOf, hf] at ht
      obtain ⟨hd, -⟩ := mem_of_findKey hf
      obtain ⟨hne, hle⟩ := (Dstent.expire_spec (hr.queue_pos h d hd)).2 t ht
      obtain ⟨hne', hle'⟩ := hall d.expire (mem_map_of_mem hd) hne
      exact ⟨hne', hle'.trans hle⟩
  have hlater : getNextExpire s'.incomingQ ≠ 0 → s.now < getNextExpire s'.incomingQ ∧
      getNextExpire s'.incomingQ ≤ s.now + maxRetransTime := fun hne => by
    obtain ⟨d, hd, heq⟩ := mem_map.1 (hleast.resolve_left hne)
    obtain ⟨t, ht, hdt⟩ := (Dstent.expire_spec (hr.queue_pos h d hd)).1.resolve_left (heq ▸ hne)
    have ht' : t ∈ s'.queueOf d.ipaddr := by
      rw [queueOf, hdst d hd]
      exact ht
    rw [← heq, hdt]
    exact ⟨hlate _ t ht', ((htracks d.ipaddr).expire_le (h.times _) t ht').2⟩
  have hkeeps : ∀ T : Option ℚ, (∀ d, T = some d → s.now ≤ d ∧ d ≤ s.now + maxRetransTime) →
      (∀ x, ∀ t ∈ s'.queueOf x, ∃ d, T = some d ∧ d ≤ t.expire) →
      Ordered { s' with incomingTimer := T } (fun y => (passedOn y s'.rtagent).reverse ++ P y) A :=
    fun T hT hdue =>
      ⟨hr.addrs ▸ h.addrs, hr.indices ▸ h.indices, hr.now ▸ h.now, hr.now ▸ h.times, hidle, hr.now ▸ hT,
        hdue, fun x t ht => hr.inOf x ▸ h.alive x t (hsub x t ht), htracks⟩
  have hhandler : handlerIncomingTimer { s with incomingTimer := none } =
      (if getNextExpire s'.incomingQ ≠ 0 then
        if getNextExpire s'.incomingQ > s'.now then
          some { s' with incomingTimer := some (s'.now + (getNextExpire s'.incomingQ - s'.now)) }
        else none
      else some s') := by
    rw [handlerIncomingTimer]
    rw [show retireHoles (buffered { s with incomingTimer := none } + 1) { s with incomingTimer := none } =
      some s' from hs']
  rw [hhandler]
  by_cases hne : getNextExpire s'.incomingQ ≠ 0
  · obtain ⟨hlt, hle⟩ := hlater hne
    rw [if_pos hne, if_pos (by rw [hr.now]; exact hlt), add_sub_cancel]
    refine ⟨_, rfl, hr.now, hkeeps _ (fun d hd => ?_) fun x t ht => ⟨_, rfl, (hnext x t ht).2⟩, hskips⟩
    obtain rfl := Option.some.inj hd
    exact ⟨hlt.le, hle⟩
  · rw [if_neg hne]
    have hnone : { s' with incomingTimer := none } = s' := by rw [← hr.timer]
    have hnever : ∀ d : ℚ, none = some d → s.now ≤ d ∧ d ≤ s.now + maxRetransTime :=
      fun d hd => by cases hd
    exact ⟨s', rfl, hr.now, hnone ▸ hkeeps none hnever fun x t ht => absurd (hnext x t ht).1 hne, hskips⟩

end ImepAgent

end Ns2.Imep
