import Ns2.Imep.RetireHoles

/-! The packets of a neighbour are passed on in order. -/

namespace Ns2.Imep

open Option Bool

namespace ImepAgent

variable {s s' : ImepAgent} {x y : ℤ} {P P' : ℤ → List ℕ} {A A' : ℤ → List (ℕ × ℚ)} {e : ImepEvent}
  {H : Heard}

theorem Ordered.restrict (h : Ordered s P A) (hP : ∀ x, (s.lastOf x).isSome → P' x = P x)
    (hA : ∀ x, (s.lastOf x).isSome → A' x = A x) (hP' : ∀ x, (s.lastOf x).isSome = false → P' x = [])
    (hA' : ∀ x, (s.lastOf x).isSome = false → A' x = []) : Ordered s P' A' := by
  refine ⟨h.addrs, h.indices, h.now, fun x => ?_, h.idle, h.timer, h.due, h.alive, fun x => ?_⟩
  · cases hx : (s.lastOf x).isSome with
    | true => exact hA x hx ▸ h.times x
    | false =>
      rw [hA' x hx]
      exact nofun
  · cases hx : (s.lastOf x).isSome with
    | true =>
      rw [hP x hx, hA x hx]
      exact h.tracks x
    | false =>
      have hnone : s.lastOf x = none := by simpa using hx
      have hq : s.queueOf x = [] := Tracks.of_last_none (hnone ▸ h.tracks x) |>.2
      rw [hP' x hx, hnone, hq]
      exact tracks_nil nofun

/-- The invariant after an event, with the holes that have been skipped. -/
structure Recorded (s : ImepAgent) (e : ImepEvent) (H : Heard) (s' : ImepAgent) : Prop where
  ordered : Ordered s' (H.record s e s' s'.rtagent).passed (H.record s e s' s'.rtagent).arrived
  skips : ∀ x, SkipsRetired s'.now e (passedOn x s'.rtagent) ((H.record s e s' s'.rtagent).passed x)
    ((H.record s e s' s'.rtagent).arrived x)

theorem recorded_of_ordered
    (h : Ordered s' (fun x => (passedOn x s'.rtagent).reverse ++ H.passed x)
      fun x => Heard.arrive s.now x (H.arrived x) e)
    (hskips : ∀ x, SkipsRetired s'.now e (passedOn x s'.rtagent)
      ((passedOn x s'.rtagent).reverse ++ H.passed x) (Heard.arrive s.now x (H.arrived x) e)) :
    Recorded s e H s' := by
  refine ⟨h.restrict (fun x hx => if_pos hx) (fun x hx => if_pos hx)
    (fun x hx => if_neg (eq_false_iff.1 hx)) fun x hx => if_neg (eq_false_iff.1 hx),
    fun x => ?_⟩
  rw [Heard.record]
  dsimp only
  split_ifs
  · exact hskips x
  · rintro m hm ⟨k, hk, -⟩
    cases hk

theorem skipsRetired_of_nil {now : ℚ} {new passed : List ℕ} {arrived : List (ℕ × ℚ)} (h : new = []) :
    SkipsRetired now e new passed arrived := by
  rw [h]
  exact nofun

section

variable (h : Ordered s H.passed H.arrived) (hcalls : ∀ x, passedOn x s.rtagent = [])
include h hcalls

theorem Ordered.recorded_wakes
    (hw : Wakes s s') (he : ∀ x, Heard.arrive s.now x (H.arrived x) e = H.arrived x) :
    Recorded s e H s' := by
  have hnone : ∀ x, passedOn x s'.rtagent = [] := fun x => (hw.calls x).trans (hcalls x)
  refine recorded_of_ordered ?_ fun x => skipsRetired_of_nil (hnone x)
  simp only [hnone, he]
  exact h.wakes hw

theorem Ordered.recorded_lapses (hl : Lapses s s')
    (he : ∀ x, Heard.arrive s.now x (H.arrived x) e = H.arrived x) : Recorded s e H s' := by
  have hnone : ∀ x, passedOn x s'.rtagent = [] := fun x => (hl.calls x).trans (hcalls x)
  refine ⟨(h.lapses hl).restrict (fun x hx => ?_) (fun x hx => ?_)
    (fun x hx => if_neg (eq_false_iff.1 hx)) (fun x hx => if_neg (eq_false_iff.1 hx)),
    fun x => skipsRetired_of_nil (hnone x)⟩
  · rw [if_pos hx, Heard.record]
    dsimp only
    rw [if_pos hx, hnone]
    rfl
  · rw [Heard.record]
    dsimp only
    rw [if_pos hx, he]

theorem Ordered.recorded_incomingTimer
    (hok : ∀ d ∈ s.incomingQ, TimerWrapSafe s.now d.txents ∧ HolesInOrder s.now d.txents) :
    ∃ s', handlerIncomingTimer { s with incomingTimer := none } = some s' ∧
      Recorded s .incomingTimer H s' := by
  have hall : ∀ x, TimerWrapSafe s.now (s.queueOf x) ∧ HolesInOrder s.now (s.queueOf x) := fun x => by
    rw [queueOf, dstOf]
    cases hf : findKey Dstent.ipaddr x s.incomingQ with
    | none =>
      exact ⟨fun _ hu => absurd hu List.not_mem_nil, fun _ ht => absurd ht List.not_mem_nil⟩
    | some d => exact hok d (mem_of_findKey hf).1
  obtain ⟨s', hs', hnow, hord, hskips⟩ :=
    ordered_handlerIncomingTimer h hcalls (fun x => (hall x).1) fun x => (hall x).2
  refine ⟨s', hs', recorded_of_ordered hord fun x m hm _ hpred => ⟨trivial, ?_⟩⟩
  rw [hnow]
  exact hskips x m hm hpred

theorem Ordered.recorded_object {n : ℕ} (hwin : ∀ k ∈ (H.passed x).head?, n < k + 128 ∧ k < n + 128)
    (hfirst : H.passed x ≠ [] → s.lastOf x = some 0 → n % 256 = 1)
    (hsafe : ∀ k ∈ (H.passed x).head?, n = k + 1 → WrapSafe n (s.queueOf x)) :
    ∃ s', s.recvIncoming x (.object n) = some s' ∧ Recorded s (.recv x (.object n)) H s' := by
  obtain ⟨hw, hup, hin⟩ := wakes_imepSetLinkInStatus (s := s) (x := x)
  have hqueue : (s.imepSetLinkInStatus x).queueOf x = s.queueOf x := by
    rw [queueOf, hw.queue, queueOf]
  have hfirst' : H.passed x ≠ [] → (s.imepSetLinkInStatus x).lastOf x = some 0 → n % 256 = 1 :=
    fun hne hzero => by
      refine hfirst hne ?_
      rcases hw.last x with hl | ⟨hl, -⟩
      · exact hl ▸ hzero
      · exact absurd (Tracks.of_last_none (hl ▸ h.tracks x)).1 hne
  obtain ⟨s', hs', hh⟩ := heeded_imepObjectInput (h.wakes hw) (fun y => (hw.calls y).trans (hcalls y)) hup
    (hw.now ▸ hin) hwin hfirst' (hqueue ▸ hsafe)
  refine ⟨s', hs', recorded_of_ordered ?_ fun y => ?_⟩
  · have hord := hh.ordered
    rw [hw.now] at hord
    exact hord
  · by_cases hy : y = x
    · intro m hm hk hpred
      subst hy
      exact absurd (hh.skips m hm hk) hpred
    · exact skipsRetired_of_nil (hh.calls y hy)

end

theorem Ordered.tick (h : Ordered s P A) {t : ℚ} (ht : s.mayTick t = true) :
    Ordered { s with now := t } P A := by
  simp only [mayTick, and_eq_true, decide_eq_true_eq, all_eq_true] at ht
  obtain ⟨⟨hnow, -⟩, htimer⟩ := ht
  refine ⟨h.addrs, h.indices, h.now.trans hnow, fun x p hp => ?_, h.idle, fun d hd => ?_, h.due, h.alive,
    h.tracks⟩
  · obtain ⟨h0, hp'⟩ := h.times x p hp
    exact ⟨h0, hp'.trans hnow⟩
  · refine ⟨htimer d hd, (h.timer d hd).2.trans ?_⟩
    linarith

theorem Ordered.recorded_handle (h : Ordered s H.passed H.arrived)
    (hcalls : ∀ x, passedOn x s.rtagent = []) (hwin : InWindow (s, H) e) (hok : Orderly (s, H) e) :
    (Resequences e → (s.handle e).isSome) ∧ ∀ s', s.handle e = some s' → Recorded s e H s' := by
  cases e with
  | tick t =>
    refine ⟨False.elim, fun s' hs' => ?_⟩
    obtain rfl := Option.some.inj hs'
    split_ifs with ht
    · refine recorded_of_ordered ?_ fun x => skipsRetired_of_nil (hcalls x)
      simp only [hcalls]
      exact h.tick ht
    · exact h.recorded_wakes hcalls (Wakes.refl s) fun _ => rfl
  | send memory =>
    refine ⟨False.elim, fun s' hs' => ?_⟩
    obtain rfl := Option.some.inj hs'
    exact h.recorded_wakes hcalls (wakes_aggregateObjectBlock memory) fun _ => rfl
  | recv src block =>
    cases block with
    | beacon =>
      refine ⟨False.elim, fun s' hs' => ?_⟩
      obtain rfl := Option.some.inj hs'
      exact h.recorded_wakes hcalls wakes_imepSetLinkInStatus.1 fun _ => rfl
    | ack number =>
      refine ⟨False.elim, fun s' hs' => ?_⟩
      exact h.recorded_wakes hcalls (wakes_imepSetLinkInStatus.1.trans (wakes_imepAckInput hs')) fun _ => rfl
    | hello =>
      refine ⟨False.elim, fun s' hs' => ?_⟩
      exact h.recorded_wakes hcalls
        (wakes_imepSetLinkInStatus.1.trans (wakes_imepSetLinkBiStatus hs')) fun _ => rfl
    | object n =>
      obtain ⟨s₁, hs₁, hrec⟩ := h.recorded_object hcalls hwin hok.1 hok.2
      have hs₁' : s.handle (.recv src (.object n)) = some s₁ := hs₁
      refine ⟨fun _ => by rw [hs₁']; rfl, fun s' hs' => ?_⟩
      obtain rfl := Option.some.inj (hs₁'.symm.trans hs')
      exact hrec
  | undeliverable x =>
    refine ⟨False.elim, fun s' hs' => ?_⟩
    obtain rfl := Option.some.inj hs'
    exact h.recorded_lapses hcalls lapses_imepSetLinkDownStatus fun _ => rfl
  | purge x =>
    refine ⟨False.elim, fun s' hs' => ?_⟩
    obtain rfl := Option.some.inj hs'
    exact h.recorded_lapses hcalls h.purgeLink fun _ => rfl
  | rexmitTimer =>
    refine ⟨False.elim, fun s' hs' => ?_⟩
    rw [handle] at hs'
    split_ifs at hs'
    · obtain rfl := Option.some.inj hs'
      refine h.recorded_lapses hcalls (Lapses.trans ?_ lapses_handlerReXmitTimer) fun _ => rfl
      exact lapses_of_links rfl rfl rfl rfl fun _ => rfl
    · obtain rfl := Option.some.inj hs'
      exact h.recorded_wakes hcalls (Wakes.refl s) fun _ => rfl
  | incomingTimer =>
    rw [handle]
    split_ifs with hdue
    · obtain ⟨s₁, hs₁, hrec⟩ := h.recorded_incomingTimer hcalls (hok hdue)
      refine ⟨fun _ => by rw [hs₁]; rfl, fun s' hs' => ?_⟩
      obtain rfl := Option.some.inj (hs₁.symm.trans hs')
      exact hrec
    · refine ⟨fun _ => rfl, fun s' hs' => ?_⟩
      obtain rfl := Option.some.inj hs'
      exact h.recorded_wakes hcalls (Wakes.refl s) fun _ => rfl

theorem ordered_init : Ordered init Heard.init.passed Heard.init.arrived :=
  ⟨List.nodup_nil, List.nodup_nil, le_rfl, fun _ => nofun, fun _ => rfl, nofun, fun _ => nofun,
    fun _ => nofun, fun _ => tracks_nil nofun⟩

end ImepAgent

theorem step_ordered {sH : ImepAgent × Heard} {e : ImepEvent}
    (h : sH.1.Ordered sH.2.passed sH.2.arrived) (hwin : InWindow sH e) (hok : Orderly sH e) :
    InOrder sH e ∧ ∀ out ∈ imepHeard.step sH e, out.1.1.Ordered out.1.2.passed out.1.2.arrived := by
  obtain ⟨s, H⟩ := sH
  set s₀ : ImepAgent := { s with rtagent := [] } with hs₀
  have h₀ : s₀.Ordered H.passed H.arrived :=
    ⟨h.addrs, h.indices, h.now, h.times, h.idle, h.timer, h.due, h.alive, h.tracks⟩
  have hwin₀ : InWindow (s₀, H) e := by cases e <;> exact hwin
  have hok₀ : Orderly (s₀, H) e := by cases e <;> exact hok
  obtain ⟨hsome, hrec⟩ := h₀.recorded_handle (fun _ => rfl) hwin₀ hok₀
  have hstep : imepHeard.step (s, H) e =
      (s₀.handle e).map fun s' => ((s', H.record s e s' s'.rtagent), s'.rtagent) := by
    change ((s₀.handle e).map _).map _ = _
    rw [map_map]
    rfl
  have hout : ∀ out ∈ imepHeard.step (s, H) e, ImepAgent.Recorded s₀ e H out.1.1 ∧
      out.1.2 = H.record s₀ e out.1.1 out.2 ∧ out.2 = out.1.1.rtagent := fun out hout => by
    rw [hstep] at hout
    obtain ⟨s', hs', rfl⟩ := map_eq_some_iff.1 hout
    exact ⟨hrec s' hs', rfl, rfl⟩
  refine ⟨⟨fun he => ?_, fun out ho l _ => ?_⟩, fun out ho => ?_⟩
  · rw [hstep, isSome_map]
    exact hsome he
  · obtain ⟨hr, hH, hc⟩ := hout out ho
    rw [hH, hc]
    exact ⟨(hr.ordered.tracks l.index).decreasing, hr.skips l.index, (hr.ordered.tracks l.index).atOnce⟩
  · obtain ⟨hr, hH, hc⟩ := hout out ho
    rw [hH, hc]
    exact hr.ordered

/-- In a run whose events are all orderly the packets of every neighbour are passed on in order. -/
theorem inOrder_of_orderly (es : List ImepEvent)
    (h : imepHeard.RunsWith (fun sH e => InWindow sH e ∧ Orderly sH e) (.init, .init) es) :
    imepHeard.RunsWith InOrder (.init, .init) es := by
  refine h.imp (I := fun sH => sH.1.Ordered sH.2.passed sH.2.arrived) (fun sH e hord hok => ?_)
    (fun sH e sH' calls hord hok hst => ?_) ImepAgent.ordered_init
  · exact (step_ordered hord hok.1 hok.2).1
  · exact (step_ordered hord hok.1 hok.2).2 _ hst

/-- Packets around the wrap of the sequence numbers, of which one comes twice, one waits for the one
before it and two wait for one that is lost. -/
def orderlyEvents : List ImepEvent :=
  [.recv 1 .hello, .recv 1 (.object 253), .recv 1 (.object 255), .recv 1 (.object 254),
    .recv 1 (.object 254), .recv 1 (.object 257), .tick 1, .recv 1 (.object 259), .recv 1 (.object 258),
    .tick (3 / 2), .incomingTimer, .recv 1 (.object 256), .recv 1 (.object 260)]

theorem inOrder_of_orderly_orderlyEvents :
    imepHeard.RunsWith (fun sH e => InWindow sH e ∧ Orderly sH e) (.init, .init) orderlyEvents ∧
      imepHeard.RunsWith InOrder (.init, .init) orderlyEvents := by
  have h : imepHeard.RunsWith (fun sH e => InWindow sH e ∧ Orderly sH e) (.init, .init) orderlyEvents := by
    decide +kernel
  exact ⟨h, inOrder_of_orderly orderlyEvents h⟩

/-- The events are in the window, and the packets are not delivered in order. -/
def Disordered (es : List ImepEvent) : Prop :=
  imepHeard.RunsWith InWindow (.init, .init) es ∧ ¬imepHeard.RunsWith InOrder (.init, .init) es

/-- The second copy of the packet 256 is passed on again, since the last sequence number is 0; the packet
256 waits though 255 has been passed on, since the search is for 256; and the timer meets a hole that is
not due between two that are, and its assertion fails. -/
theorem not_inOrder_duplicate :
    Disordered [.recv 1 (.object 256), .recv 1 (.object 256)] ∧
    Disordered [.recv 1 (.object 254), .recv 1 (.object 256), .recv 1 (.object 255)] ∧
    Disordered [.recv 1 (.object 1), .recv 1 (.object 3), .recv 1 (.object 7), .tick 1,
      .recv 1 (.object 5), .tick (3 / 2), .incomingTimer] := by
  unfold Disordered
  decide +kernel

end Ns2.Imep
