import Mathlib.Algebra.Order.BigOperators.Group.List
import Mathlib.Data.List.ReduceOption
import Ns2.Queue.Drr

/-! `enque` and `deque` are sequences of moves of a deficit round robin. Two flows of a `DRR` that
always have packets send as much as each other, up to a quantum and two packets, unless the turn
of one is marked although another flow is the current one. -/

namespace Ns2.Drr

open DeficitRound List

variable {c : Config} {M : ℤ} {s : Drr} {r t : List ℤ} {f : ℤ} {p : Packet}

theorem total_nonneg {g : PacketDRR → ℤ} (hg : ∀ f ∈ r, 0 ≤ g (s.drr f)) : 0 ≤ s.total r g := by
  refine sum_nonneg fun x hx => ?_
  obtain ⟨f, hf, rfl⟩ := mem_map.1 hx
  exact hg f hf

theorem Rep.retire (h : s.Rep c M r) (hf : f ∈ r) (hq : (s.drr f).queue = [p]) (d : ℤ) (b : Bool) :
    ∃ s', ({ s with pktcnt := s.pktcnt - 1, bytecnt := s.bytecnt - p.size }.modify f fun q =>
        ⟨[], q.pkts - 1, q.src, q.bcount - p.size, d, b⟩).retire f = some s' ∧
      s'.Rep c M (r.erase f) ∧ s'.pktcnt = s.pktcnt - 1 ∧
      s'.round (r.erase f) = (s.round r).leave f d b := by
  obtain ⟨k, hidle, hk⟩ := idle_eq (s := { s with
    pktcnt := s.pktcnt - 1, bytecnt := s.bytecnt - p.size }.modify f fun q =>
      ⟨[], q.pkts - 1, q.src, q.bcount - p.size, d, b⟩) h.ring h.curr hf
  refine ⟨{ s with
    circle := k
    curr := (r.erase f).head?
    flwcnt := s.flwcnt - 1
    pktcnt := s.pktcnt - 1
    bytecnt := s.bytecnt - p.size }.modify f fun q =>
      ⟨[], q.pkts - 1, q.src, q.bcount - p.size, d, b⟩, ?_, ?_, rfl, ?_⟩
  · rw [Drr.retire, hidle]
    rfl
  · refine h.modify rfl hk rfl (fun x hx => mem_erase_of_ne hx) ?_
      ((h.counted f).take hq _ _ _) ?_ ?_ ?_
    · simp [h.ring.nodup.mem_erase_iff]
    · have hlen := length_erase_of_mem hf
      have hpos := length_pos_of_mem hf
      have hflwcnt := h.flwcnt
      dsimp only
      omega
    · dsimp only
      omega
    · dsimp only
      omega
  · rw [round_modify]
    simp [round, DeficitRound.leave]

theorem Rep.dropFirst (h : s.Rep c M r) (hf : f ∈ r) :
    ∃ s₁ p s₂ r', s.take f = some (s₁, p) ∧
      (if (s₁.drr f).pkts = 0 then s₁.retire f else some s₁) = some s₂ ∧
      s₂.Rep c M r' ∧ r' ⊆ r ∧ s₂.pktcnt = s.pktcnt - 1 ∧
      ∀ Q K, (∀ k ∈ K, k ∈ r') → Moves Q M K (s.round r) [] (s₂.round r') := by
  obtain ⟨p, rest, hq⟩ := exists_cons_of_ne_nil ((h.mem_iff f).1 hf)
  cases rest with
  | nil =>
    obtain ⟨s', hret, hrep, hpktcnt, hround⟩ :=
      h.retire hf hq (s.drr f).deficitCounter (s.drr f).turn
    refine ⟨_, p, s', r.erase f, by rw [Drr.take, hq], ?_, hrep, erase_subset, hpktcnt,
      fun Q K hK => ?_⟩
    · have hpkts := (h.counted f).pkts
      rw [hq] at hpkts
      rw [if_pos (by simp [hpkts])]
      exact hret
    · rw [hround]
      exact Moves.one (Move.leave (fun hfK => (h.ring.nodup.mem_erase_iff.1 (hK f hfK)).1 rfl) _ _)
  | cons p' rest =>
    obtain ⟨s', htake, hpkts, hrep, hround⟩ := h.take hf hq
    refine ⟨s', p, s', r, htake, if_neg hpkts, hrep, Subset.refl r, ?_, fun Q K _ => ?_⟩
    · rw [Drr.take, hq] at htake
      rw [← (Prod.mk.inj (Option.some.inj htake)).1]
      rfl
    · rw [hround]
      exact Moves.nil _

theorem Rep.pktcnt_nonneg (h : s.Rep c M r) : 0 ≤ s.pktcnt := by
  rw [h.pktcnt]
  refine total_nonneg fun f _ => ?_
  rw [(h.counted f).pkts]
  exact Int.natCast_nonneg _

theorem Rep.ne_nil (h : s.Rep c M r) (hbytes : s.bytecnt ≠ 0) : r ≠ [] := by
  rintro rfl
  exact hbytes h.bytecnt

/-- The loop of drops ends below the limit, and a flow that is still on the circle never left. -/
theorem Rep.dropOver {blimit : ℤ} (hb : 0 ≤ blimit) (fuel : ℕ) (h : s.Rep c M r)
    (hfuel : s.pktcnt < fuel) :
    ∃ s' ps r', dropOver blimit fuel s = some (s', ps) ∧ s'.Rep c M r' ∧ r' ⊆ r ∧
      s'.bytecnt ≤ blimit ∧
      ∀ Q K, (∀ k ∈ K, k ∈ r') → Moves Q M K (s.round r) [] (s'.round r') := by
  induction fuel generalizing s r with
  | zero =>
    have hpos := h.pktcnt_nonneg
    rw [Nat.cast_zero] at hfuel
    omega
  | succ fuel ih =>
    by_cases hover : s.bytecnt > blimit
    · obtain ⟨m, hm, hmax, -⟩ := h.getMaxflow (h.ne_nil (by omega))
      obtain ⟨s₁, p, s₂, r₂, htake, hret, hrep, hsub, hpktcnt, hmoves⟩ := h.dropFirst hm
      obtain ⟨s', ps, r', hdrop, hrep', hsub', hle, hmoves'⟩ := ih hrep (by omega)
      refine ⟨s', p :: ps, r', ?_, hrep', Subset.trans hsub' hsub, hle, fun Q K hK => ?_⟩
      · rw [Drr.dropOver, if_pos hover, hmax, Option.bind_some, htake, Option.bind_some]
        dsimp only
        rw [hret, Option.bind_some, hdrop]
        rfl
      · exact (hmoves Q K fun k hk => hsub' (hK k hk)).trans (hmoves' Q K hK)
    · refine ⟨s, [], r, ?_, h, Subset.refl r, by omega, fun Q K _ => Moves.nil _⟩
      rw [Drr.dropOver, if_neg hover]

/-- `enque` sends nothing, and moves only the flow of the packet and those it drops from. -/
theorem Rep.enque (hb : 0 ≤ c.blimit) (h : s.Rep c M r) (hp : 0 < p.size ∧ p.size ≤ M)
    (hwhich : 0 ≤ which c p ∧ which c p < c.buckets) :
    ∃ s' ps r', s.enque c p = some (s', ps) ∧ s'.Rep c M r' ∧
      ∀ Q K, (∀ k ∈ K, k ∈ r') → Moves Q M K (s.round r) [] (s'.round r') := by
  obtain ⟨s₁, r₁, hstart, hrep, hmove⟩ : ∃ s₁ r₁,
      (s.put c p (which c p)).start (which c p) = some s₁ ∧ s₁.Rep c M r₁ ∧
        ∀ Q K, Moves Q M K (s.round r) [] (s₁.round r₁) := by
    by_cases hf : which c p ∈ r
    · obtain ⟨hstart, hrep, hround⟩ := h.put hp hf
      exact ⟨_, r, hstart, hrep, fun Q K => hround ▸ Moves.nil _⟩
    · obtain ⟨s₁, hstart, hrep, hround⟩ := h.start hp hf
      exact ⟨s₁, _, hstart, hrep, fun Q K => hround ▸ Moves.one (Move.join hf)⟩
  obtain ⟨s', ps, r', hdrop, hrep', -, -, hmoves⟩ :=
    hrep.dropOver hb (s₁.pktcnt.toNat + 1) (by omega)
  refine ⟨s', ps, r', ?_, hrep', fun Q K hK => (hmove Q K).trans (hmoves Q K hK)⟩
  rw [Drr.enque, if_pos hwhich, hstart, Option.bind_some, hdrop]

/-- What keeps a flow from sending: the bytes its deficit is short of, and a turn to end. -/
def need (q : PacketDRR) : ℤ :=
  max 0 ((q.queue.head?.map Packet.size).getD 0 - q.deficitCounter) + if q.turn then 1 else 0

theorem need_nonneg (q : PacketDRR) : 0 ≤ need q := by
  unfold need
  split <;> omega

theorem Rep.grant (hQ : 0 < c.quantum) (h : s.Rep c M (f :: t)) :
    (s.grant c f).Rep c M (f :: t) ∧
      ((s.grant c f).drr f).turn = true ∧ ((s.grant c f).drr f).queue = (s.drr f).queue ∧
      (∀ K, Moves c.quantum M K (s.round (f :: t)) [] ((s.grant c f).round (f :: t))) ∧
      ∀ p ∈ (s.drr f).queue.head?, ((s.grant c f).drr f).deficitCounter < p.size →
        (s.grant c f).total (f :: t) need ≤ s.total (f :: t) need := by
  have hf : f ∈ f :: t := mem_cons_self
  unfold Drr.grant
  cases hturn : (s.drr f).turn with
  | true => exact ⟨h, hturn, rfl, fun K => Moves.nil _, fun p _ _ => le_rfl⟩
  | false =>
    simp only [Bool.false_eq_true, if_false]
    refine ⟨?_, by simp, by simp, fun K => ?_, ?_⟩
    · exact h.modify rfl h.ring h.curr (fun _ _ => Iff.rfl) (h.mem_iff f)
        ⟨(h.counted f).pkts, (h.counted f).bcount, (h.counted f).packet⟩ h.flwcnt (by simp)
        (by simp)
    · rw [round_modify]
      exact Moves.one (Move.grant rfl hturn)
    · intro p hp hlt
      rw [Option.mem_def] at hp
      rw [modify_drr_self] at hlt
      rw [total_modify h.ring.nodup h.ring.nodup (fun _ _ => Iff.rfl) _ _ (absurd hf)
        (absurd hf)]
      simp only [need, hp, hturn, Option.map_some, Option.getD_some, Bool.false_eq_true, if_false,
        if_true]
      dsimp only at hlt
      omega

theorem Rep.pass (h : s.Rep c M (f :: t)) (hturn : (s.drr f).turn = true) :
    (s.pass f).Rep c M (t ++ [f]) ∧
      (s.pass f).round (t ++ [f]) = (s.round (f :: t)).pass f t ∧
      (s.pass f).total (t ++ [f]) need = s.total (f :: t) need - 1 := by
  have hmem : ∀ x, x ∈ t ++ [f] ↔ x ∈ f :: t := by simp [or_comm]
  have hf : f ∈ f :: t := mem_cons_self
  have hring : s.circle.Rep (t ++ [f]) := h.ring.rotate (isRotated_concat f t).symm
  refine ⟨?_, ?_, ?_⟩
  · exact h.modify rfl hring h.ring.next (fun x _ => hmem x) ((hmem f).trans (h.mem_iff f))
      ⟨(h.counted f).pkts, (h.counted f).bcount, (h.counted f).packet⟩
      (by simp [h.flwcnt]) (by simp) (by simp)
  · rw [Drr.pass, round_modify]
    simp [round, DeficitRound.pass]
  · have htotal : ∀ u g, ({ s with curr := s.circle.next f }.modify f u).total (t ++ [f]) g =
        s.total (f :: t) g + (g (u (s.drr f)) - g (s.drr f)) := fun u g =>
      total_modify (s := { s with curr := s.circle.next f }) h.ring.nodup hring.nodup
        (fun x _ => hmem x) u g (absurd hf) (absurd ((hmem f).2 hf))
    rw [Drr.pass, htotal]
    simp only [need, hturn, Bool.false_eq_true, if_false, if_true]
    omega

theorem Rep.serve {rest : List Packet} (h : s.Rep c M (f :: t))
    (hq : (s.drr f).queue = p :: rest) (hle : p.size ≤ (s.drr f).deficitCounter) :
    ∃ s' r', s.serve f = some (s', p) ∧ s'.Rep c M r' ∧
      ∀ Q K, (∀ k ∈ K, k ∈ r') →
        Moves Q M K (s.round (f :: t)) [(which c p, p.size)] (s'.round r') := by
  have hf : f ∈ f :: t := mem_cons_self
  obtain ⟨⟨hpos, -⟩, rfl⟩ := (h.counted f).packet p (hq ▸ mem_cons_self)
  have hsend : ∀ Q K, Move Q M K (s.round (which c p :: t)) [(which c p, p.size)]
      ((s.round (which c p :: t)).send (which c p) p.size) := fun Q K => Move.send hpos.le hle
  have hpkts := (h.counted (which c p)).pkts
  cases rest with
  | nil =>
    obtain ⟨s', hret, hrep, -, hround⟩ := h.retire hf hq 0 false
    refine ⟨s', _, ?_, hrep, fun Q K hK => ?_⟩
    · rw [hq] at hpkts
      simp only [Drr.serve, Drr.take, hq, Option.bind_some, modify_modify, modify_drr_self]
      rw [if_pos (by simp [hpkts]), hret, Option.map_some]
    · rw [hround]
      have hleave : (s.round (which c p :: t)).leave (which c p) 0 false =
          ((s.round (which c p :: t)).send (which c p) p.size).leave (which c p) 0 false := by
        simp [DeficitRound.leave, DeficitRound.send]
      rw [hleave]
      exact Moves.cons (hsend Q K) (Moves.one (Move.leave (fun hfK =>
        (h.ring.nodup.mem_erase_iff.1 (hK _ hfK)).1 rfl) _ _))
  | cons p' rest =>
    rw [hq, length_cons, length_cons] at hpkts
    refine ⟨{ s with pktcnt := s.pktcnt - 1, bytecnt := s.bytecnt - p.size }.modify (which c p)
      fun q => ⟨p' :: rest, q.pkts - 1, q.src, q.bcount - p.size, q.deficitCounter - p.size,
        q.turn⟩, which c p :: t, ?_, ?_, fun Q K hK => ?_⟩
    · simp only [Drr.serve, Drr.take, hq, Option.bind_some, modify_modify, modify_drr_self]
      rw [if_neg (by simp only [hpkts]; omega)]
    · refine h.modify rfl h.ring h.curr (fun _ _ => Iff.rfl) (by simp)
        ((h.counted _).take hq _ _ _) h.flwcnt ?_ ?_
      · dsimp only
        omega
      · dsimp only
        omega
    · rw [round_modify]
      have hround := Moves.one (hsend Q K)
      simpa [round, DeficitRound.send] using hround

/-- The loop of `deque` ends with a packet, whatever turns it begins and ends on the way. -/
theorem Rep.dequeFrom (hQ : 0 < c.quantum) (fuel : ℕ) (h : s.Rep c M r) (hr : r ≠ [])
    (hfuel : s.total r need < fuel) :
    ∃ s' p r', dequeFrom c fuel s = some (s', p) ∧ s'.Rep c M r' ∧
      ∀ K, (∀ k ∈ K, k ∈ r') →
        Moves c.quantum M K (s.round r) [(which c p, p.size)] (s'.round r') := by
  induction fuel generalizing s r with
  | zero =>
    have hpos : 0 ≤ s.total r need := total_nonneg fun f _ => need_nonneg _
    rw [Nat.cast_zero] at hfuel
    omega
  | succ fuel ih =>
    obtain ⟨f, t, rfl⟩ := exists_cons_of_ne_nil hr
    obtain ⟨p, rest, hq⟩ := exists_cons_of_ne_nil ((h.mem_iff f).1 mem_cons_self)
    obtain ⟨hrep, hturn, hqueue, hgrant, hneed⟩ := h.grant hQ
    rw [hq] at hqueue hneed
    have hcurr : s.curr = some f := h.curr
    unfold Drr.dequeFrom
    rw [hcurr, Option.bind_some]
    dsimp only
    rw [hqueue, head?_cons, Option.bind_some]
    by_cases hle : p.size ≤ ((s.grant c f).drr f).deficitCounter
    · obtain ⟨s', r', hserve, hrep', hmoves⟩ := hrep.serve hqueue hle
      refine ⟨s', p, r', by rw [if_pos hle, hserve], hrep', fun K hK => ?_⟩
      exact (hgrant K).trans (hmoves _ K hK)
    · rw [if_neg hle]
      rw [not_le] at hle
      obtain ⟨hrep', hround, htotal⟩ := hrep.pass hturn
      have hlt := hneed p rfl hle
      obtain ⟨s', p', r', hdeque, hrep'', hmoves⟩ := ih hrep' (by simp) (by omega)
      refine ⟨s', p', r', hdeque, hrep'', fun K hK => ?_⟩
      have hmax := ((hrep.counted f).packet p (hqueue ▸ mem_cons_self)).1.2
      have hpass : Move c.quantum M K ((s.grant c f).round (f :: t)) []
          (((s.grant c f).round (f :: t)).pass f t) :=
        Move.pass rfl hturn (lt_of_lt_of_le hle hmax)
      rw [← hround] at hpass
      exact (hgrant K).trans (Moves.cons hpass (hmoves K hK))

theorem total_le {g g' : PacketDRR → ℤ} (h : ∀ f ∈ r, g (s.drr f) ≤ g' (s.drr f) + 1) :
    s.total r g ≤ s.total r g' + r.length := by
  unfold total
  induction r with
  | nil => simp
  | cons f r ih =>
    rw [forall_mem_cons] at h
    have hr := ih h.2
    simp only [map_cons, sum_cons, length_cons, Nat.cast_add, Nat.cast_one]
    omega

theorem Rep.need_le (h : s.Rep c M r) (hs : (s.round r).Sound c.quantum M) :
    s.total r need ≤ s.bytecnt + s.flwcnt := by
  have hflow : ∀ f ∈ r, need (s.drr f) ≤ (s.drr f).bcount + 1 := by
    intro f hf
    obtain ⟨p, rest, hq⟩ := exists_cons_of_ne_nil ((h.mem_iff f).1 hf)
    have hdef : 0 ≤ (s.drr f).deficitCounter := hs.nonneg f hf
    have hsize := ((h.counted f).packet p (hq ▸ mem_cons_self)).1.1
    have hrest : 0 ≤ (rest.map Packet.size).sum := by
      refine sum_nonneg fun x hx => ?_
      obtain ⟨p', hp', rfl⟩ := mem_map.1 hx
      exact ((h.counted f).packet p' (hq ▸ mem_cons_of_mem p hp')).1.1.le
    have hbcount := (h.counted f).bcount
    rw [hq, map_cons, sum_cons] at hbcount
    unfold need
    rw [hq, head?_cons, Option.map_some, Option.getD_some]
    split <;> omega
  rw [h.bytecnt, h.flwcnt]
  exact total_le hflow

theorem Rep.deque (hQ : 0 < c.quantum) (h : s.Rep c M r) (hs : (s.round r).Sound c.quantum M) :
    ∃ s' a r', s.deque c = some (s', a) ∧ s'.Rep c M r' ∧
      ∀ K, (∀ k ∈ K, k ∈ r') → Moves c.quantum M K (s.round r)
        (a.toList.map fun p => (which c p, p.size)) (s'.round r') := by
  by_cases hbytes : s.bytecnt = 0
  · refine ⟨s, none, r, by rw [Drr.deque, if_pos hbytes], h, fun K _ => Moves.nil _⟩
  · have hneed := h.need_le hs
    obtain ⟨s', p, r', hdeque, hrep, hmoves⟩ := h.dequeFrom hQ
      (s.bytecnt + s.flwcnt + 1).toNat (h.ne_nil hbytes) (by omega)
    refine ⟨s', some p, r', ?_, hrep, hmoves⟩
    rw [Drr.deque, if_neg hbytes, hdeque]
    rfl

end Ns2.Drr

namespace Ns2.Drr

open DeficitRound List

/-- A packet of 1 to `M` bytes whose bucket is in the array. -/
def Valid (c : Config) (M : ℤ) : DrrOp → Prop
  | .enque p => (0 < p.size ∧ p.size ≤ M) ∧ 0 ≤ which c p ∧ which c p < c.buckets
  | .deque => True

instance (c : Config) (M : ℤ) : DecidablePred (Valid c M)
  | .enque p => inferInstanceAs (Decidable
      ((0 < p.size ∧ p.size ≤ M) ∧ 0 ≤ which c p ∧ which c p < c.buckets))
  | .deque => inferInstanceAs (Decidable True)

/-- Both flows have packets. -/
def Backlogged (i j : ℤ) (s : Drr) : Prop := (s.drr i).queue ≠ [] ∧ (s.drr j).queue ≠ []

instance (i j : ℤ) (s : Drr) : Decidable (Backlogged i j s) :=
  inferInstanceAs (Decidable ((s.drr i).queue ≠ [] ∧ (s.drr j).queue ≠ []))

/-- `turn` is set only while the flow is the current one. -/
def InTurn (i : ℤ) (s : Drr) : Prop := (s.drr i).turn = true → s.curr = some i

instance (i : ℤ) (s : Drr) : Decidable (InTurn i s) :=
  inferInstanceAs (Decidable ((s.drr i).turn = true → s.curr = some i))

/-- The bytes dequeued for a flow. -/
def bytes (c : Config) (i : ℤ) (as : List (Option Packet)) : ℤ :=
  ((as.reduceOption.filter (which c · = i)).map Packet.size).sum

/-- What the flows send in a run. -/
def sends (c : Config) (as : List (Option Packet)) : List (ℤ × ℤ) :=
  as.reduceOption.map fun p => (which c p, p.size)

variable {c : Config} {M : ℤ} {s s' : Drr} {r : List ℤ} {os : List DrrOp}
  {as : List (Option Packet)} {i j : ℤ}

theorem sent_sends (c : Config) (i : ℤ) (as : List (Option Packet)) :
    sent i (sends c as) = bytes c i as := by
  unfold sent sends bytes
  rw [filter_map, map_map]
  rfl

theorem Rep.step (hQ : 0 < c.quantum) (hb : 0 < c.blimit) (h : s.Rep c M r)
    (hs : (s.round r).Sound c.quantum M) {o : DrrOp} (ho : Valid c M o) :
    ∃ s' a r', (machine c).step s o = some (s', a) ∧ s'.Rep c M r' ∧
      ∀ K, (∀ k ∈ K, k ∈ r') → Moves c.quantum M K (s.round r) (sends c [a]) (s'.round r') := by
  cases o with
  | enque p =>
    obtain ⟨s', ps, r', henque, hrep, hmoves⟩ := h.enque hb.le ho.1 ho.2
    refine ⟨s', none, r', ?_, hrep, fun K hK => hmoves _ K hK⟩
    simp only [machine, henque, Option.map_some]
  | deque =>
    obtain ⟨s', a, r', hdeque, hrep, hmoves⟩ := h.deque hQ hs
    refine ⟨s', a, r', hdeque, hrep, fun K hK => ?_⟩
    cases a with
    | none => exact hmoves K hK
    | some p => exact hmoves K hK

theorem backlogged_first (hos : (machine c).RunsWith (fun s _ => Backlogged i j s) s os)
    (hrun : (machine c).run s os = some (s', as)) (hlast : Backlogged i j s') :
    Backlogged i j s := by
  cases os with
  | nil =>
    obtain ⟨rfl, -⟩ := Prod.mk.inj (Option.some.inj hrun)
    exact hlast
  | cons o os => exact hos.1

/-- A run is a sequence of moves in which flows that always have packets stay on the circle. -/
theorem Rep.run (hQ : 0 < c.quantum) (hb : 0 < c.blimit) (hM : 0 < M) (h : s.Rep c M r)
    (hs : (s.round r).Sound c.quantum M) (hos : ∀ o ∈ os, Valid c M o) :
    ∃ s' as r', (machine c).run s os = some (s', as) ∧ s'.Rep c M r' ∧
      (s'.round r').Sound c.quantum M ∧
      ∀ i j, (machine c).RunsWith (fun s _ => Backlogged i j s) s os → Backlogged i j s' →
        Moves c.quantum M {i, j} (s.round r) (sends c as) (s'.round r') := by
  induction os generalizing s r with
  | nil => exact ⟨s, [], r, rfl, h, hs, fun i j _ _ => Moves.nil _⟩
  | cons o os ih =>
    rw [forall_mem_cons] at hos
    obtain ⟨s₁, a, r₁, hstep, hrep, hmoves⟩ := h.step hQ hb hs hos.1
    have hs₁ := (hmoves ∅ fun k hk => hk.elim).sound hM hQ hs
    obtain ⟨s', as, r', hrun, hrep', hs', hrest⟩ := ih hrep hs₁ hos.2
    refine ⟨s', a :: as, r', ?_, hrep', hs', fun i j hok hlast => ?_⟩
    · rw [Machine.run_cons _ os hstep, hrun]
      rfl
    · have hok₁ := (Machine.runsWith_cons_iff hstep).1 hok
      have hfirst := backlogged_first hok₁.2 hrun hlast
      have hK : ∀ k ∈ ({i, j} : Set ℤ), k ∈ r₁ := by
        rintro k (rfl | rfl)
        · exact (hrep.mem_iff _).2 hfirst.1
        · exact (hrep.mem_iff _).2 hfirst.2
      have hall := (hmoves _ hK).trans (hrest i j hok₁.2 hlast)
      rwa [sends, sends, ← map_append, ← reduceOption_append] at hall

/-- Deficit round robin is fair over every interval, drops included, that begins with the turns of
both flows unmarked but for the current one. -/
theorem deque_fair (hQ : 0 < c.quantum) (hb : 0 < c.blimit) (hM : 0 < M) {os₁ os₂ : List DrrOp}
    (hos : ∀ o ∈ os₁ ++ os₂, Valid c M o) :
    ∃ s₁ as₁ s₂ as₂, (machine c).run init os₁ = some (s₁, as₁) ∧
      (machine c).run s₁ os₂ = some (s₂, as₂) ∧
      ∀ i j, i ≠ j → (machine c).RunsWith (fun s _ => Backlogged i j s) s₁ os₂ →
        Backlogged i j s₂ → InTurn i s₁ → InTurn j s₁ →
        |bytes c i as₂ - bytes c j as₂| ≤ c.quantum + 2 * M := by
  have hs : (init.round []).Sound c.quantum M :=
    ⟨nodup_nil, fun f hf => absurd hf not_mem_nil, fun f hf => absurd hf not_mem_nil⟩
  obtain ⟨s₁, as₁, r₁, hrun₁, hrep₁, hs₁, -⟩ := (rep_init c M).run hQ hb hM hs
    fun o ho => hos o (mem_append_left os₂ ho)
  obtain ⟨s₂, as₂, r₂, hrun₂, hrep₂, hs₂, hmoves⟩ := hrep₁.run hQ hb hM hs₁
    fun o ho => hos o (mem_append_right os₁ ho)
  refine ⟨s₁, as₁, s₂, as₂, hrun₁, hrun₂, fun i j hij hok hlast hi hj => ?_⟩
  obtain ⟨hiq, hjq⟩ := backlogged_first hok hrun₂ hlast
  have htimely : ∀ f, InTurn f s₁ → (s₁.round r₁).Timely f := fun f hf hturn =>
    hrep₁.curr.symm.trans (hf hturn)
  have hfair := (hmoves i j hok hlast).fair hM hQ hs₁ hij ((hrep₁.mem_iff i).2 hiq)
    ((hrep₁.mem_iff j).2 hjq) (by simp) (by simp) (htimely i hi) (htimely j hj)
  rw [sent_sends, sent_sends] at hfair
  exact hfair.le

/-- Two sources send packets of one or two bytes. -/
def pairConfig (blimit : ℤ) : Config := ⟨10, blimit, 5, 0⟩

def filling : List DrrOp := [.enque ⟨1, 2⟩, .enque ⟨2, 2⟩, .enque ⟨1, 2⟩, .enque ⟨2, 1⟩]

/-- A packet is dropped from one of the flows in the interval. -/
def crowding : List DrrOp :=
  [.deque, .enque ⟨1, 2⟩, .enque ⟨2, 2⟩, .deque, .deque, .enque ⟨2, 1⟩, .deque]

theorem deque_fair_crowding :
    ∃ s₁ as₁ s₂ as₂, (machine (pairConfig 8)).run init filling = some (s₁, as₁) ∧
      (machine (pairConfig 8)).run s₁ crowding = some (s₂, as₂) ∧
      |bytes (pairConfig 8) 1 as₂ - bytes (pairConfig 8) 2 as₂| ≤ 5 + 2 * 2 := by
  have hconditions : ((machine (pairConfig 8)).run init filling).map (fun q =>
        (decide ((machine (pairConfig 8)).RunsWith (fun s _ => Backlogged 1 2 s) q.1 crowding),
          ((machine (pairConfig 8)).run q.1 crowding).map fun q => decide (Backlogged 1 2 q.1),
          decide (InTurn 1 q.1 ∧ InTurn 2 q.1))) = some (true, some true, true) := by
    decide +kernel
  obtain ⟨s₁, as₁, s₂, as₂, hrun₁, hrun₂, hfair⟩ := deque_fair (c := pairConfig 8) (M := 2) (by decide) (by decide)
    (by decide) (show ∀ o ∈ filling ++ crowding, Valid _ 2 o by decide +kernel)
  rw [hrun₁, Option.map_some] at hconditions
  simp only [hrun₂, Option.map_some, Option.some.injEq, Prod.mk.injEq, decide_eq_true_eq]
    at hconditions
  obtain ⟨hok, hlast, hi, hj⟩ := hconditions
  exact ⟨s₁, as₁, s₂, as₂, hrun₁, hrun₂, hfair 1 2 (by decide) hok hlast hi hj⟩

/-- Flow 1 is emptied by a drop in its turn, and has packets again. -/
def emptied : List DrrOp :=
  [.enque ⟨1, 1⟩, .enque ⟨1, 2⟩, .deque, .enque ⟨2, 2⟩, .enque ⟨1, 1⟩, .enque ⟨2, 1⟩, .enque ⟨2, 1⟩]

def rounds : List DrrOp := (replicate 10 [.deque, .enque ⟨2, 1⟩]).flatten

/-- The drop leaves `turn` set, and the flow is not granted its quantum. -/
theorem not_deque_fair :
    ¬∀ os₁ os₂, (∀ o ∈ os₁ ++ os₂, Valid (pairConfig 3) 2 o) →
      ∃ s₁ as₁ s₂ as₂, (machine (pairConfig 3)).run init os₁ = some (s₁, as₁) ∧
        (machine (pairConfig 3)).run s₁ os₂ = some (s₂, as₂) ∧
        ∀ i j, i ≠ j → (machine (pairConfig 3)).RunsWith (fun s _ => Backlogged i j s) s₁ os₂ →
          Backlogged i j s₂ →
          |bytes (pairConfig 3) i as₂ - bytes (pairConfig 3) j as₂| ≤ 5 + 2 * 2 := by
  intro h
  have hrounds : ((machine (pairConfig 3)).run init emptied).map (fun q =>
      (decide ((machine (pairConfig 3)).RunsWith (fun s _ => Backlogged 2 1 s) q.1 rounds),
        ((machine (pairConfig 3)).run q.1 rounds).map fun q =>
          (decide (Backlogged 2 1 q.1), bytes (pairConfig 3) 2 q.2, bytes (pairConfig 3) 1 q.2))) =
      some (true, some (true, 10, 0)) := by
    decide +kernel
  obtain ⟨s₁, as₁, s₂, as₂, hrun₁, hrun₂, hfair⟩ := h emptied rounds (by decide +kernel)
  rw [hrun₁, Option.map_some] at hrounds
  simp only [hrun₂, Option.map_some, Option.some.injEq, Prod.mk.injEq, decide_eq_true_eq]
    at hrounds
  obtain ⟨hok, hlast, htwo, hone⟩ := hrounds
  have hle := hfair 2 1 (by decide) hok hlast
  rw [htwo, hone] at hle
  exact absurd hle (by decide)

end Ns2.Drr
