import Ns2.Sctp.PeerWindow

/-! The window of the peer over whole runs, beside the one that it advertised last. -/

namespace Ns2.Sctp

open Option

/-- A retransmission takes no more than is left of the window of the peer. New data does so too, and
what is left is no more than was advertised, or it is a probe of the window. -/
def Sent.Fits (a : UInt32) (r : Sent) : Prop :=
  if r.rtx then r.size ≤ r.peerRwnd
  else r.outstanding = 0 ∨ (r.size ≤ r.peerRwnd ∧ r.peerRwnd ≤ a.toNat)

instance (a : UInt32) (r : Sent) : Decidable (r.Fits a) := by
  unfold Sent.Fits
  infer_instance

namespace Sender

/-- The window that was advertised last, after a chunk. -/
def advertised (s : Sender) (a : UInt32) : InChunk → UInt32
  | .init arwnd => if s.state = .closed then arwnd else a
  | .initAck arwnd => if s.state = .cookieWait then arwnd else a
  | .sack k => if s.state = .established ∧ s.cumAckPoint ≤ k.cumAck then k.arwnd else a
  | _ => a

/-- The same after the chunks of a packet. -/
def advertisedBy (c : Config) : Sender → UInt32 → List InChunk → UInt32
  | _, a, [] => a
  | s, a, x :: xs => ((s.processChunk c x).map fun t => advertisedBy c t (s.advertised a x) xs).getD a

/-- The sender beside the window that was advertised last. -/
def windowMachine (c : Config) : Machine (Sender × UInt32) SenderEvent Unit :=
  ⟨fun x e => (x.1.act c e).map fun t => ((t, advertisedBy c x.1 x.2 e.packet), ())⟩

/-- After the event `uiPeerRwnd` is no more than was advertised last, and all that the event sends
fits. -/
def InWindow (c : Config) (x : Sender × UInt32) (e : SenderEvent) : Prop :=
  ∀ t ∈ x.1.act c e,
    (t.state = .established → t.peerRwnd ≤ (advertisedBy c x.1 x.2 e.packet).toNat) ∧
      ∀ r ∈ t.sent.drop x.1.sent.length, r.Fits (advertisedBy c x.1 x.2 e.packet)

/-- A SACK that is processed finds the bytes of the chunks that are marked in the window. -/
def CoversChunk (s : Sender) : InChunk → Prop
  | .sack k => s.state = .established ∧ s.cumAckPoint ≤ k.cumAck → s.Covers k
  | _ => True

/-- A timeout leaves a window that has the bytes of the packet after it, and no more than was
advertised besides. -/
def CoversTimeout (c : Config) (d : ℕ) (s : Sender) (a : UInt32) : Prop :=
  s.timeoutPacket c d ≤ s.timeoutRwnd d ∧ s.timeoutRwnd d ≤ a.toNat + s.timeoutPacket c d

def CoversEvent (c : Config) (x : Sender × UInt32) : SenderEvent → Prop
  | .recv chunks => (chunkMachine c).RunsWith CoversChunk x.1 chunks
  | .t3Timeout d => ¬ x.1.ClosesOnError c d → x.1.CoversTimeout c d x.2
  | _ => True

instance (c : Config) (x : Sender × UInt32) (e : SenderEvent) : Decidable (InWindow c x e) := by
  unfold InWindow
  infer_instance

instance (s : Sender) : (x : InChunk) → Decidable (s.CoversChunk x)
  | .sack k =>
    decidable_of_iff (s.state = .established ∧ s.cumAckPoint ≤ k.cumAck →
      markedBytes (s.scanned k) ≤ s.peerRwnd ∧ s.peerRwnd + keptBytes (s.scanned k) < 2 ^ 32)
      (imp_congr_right fun _ => ⟨fun h => ⟨h.1, h.2⟩, fun h => ⟨h.1, h.2⟩⟩)
  | .init _ | .initAck _ | .cookieEcho | .cookieAck | .data | .forwardTsn | .heartbeat
  | .heartbeatAck _ => isTrue trivial

instance (c : Config) (x : Sender × UInt32) : (e : SenderEvent) → Decidable (CoversEvent c x e)
  | .recv _ | .t3Timeout _ => by
    unfold CoversEvent CoversTimeout
    infer_instance
  | .reset | .close | .setPrimary _ | .sendmsg _ | .heartbeatTimeout _ | .heartbeatGen _
  | .cwndDegrade _ | .t1Init | .t1Cookie => isTrue trivial

/-- The window is no more than was advertised, and what was sent since `s` fits. -/
structure Within (a : UInt32) (s t : Sender) : Prop where
  peerRwnd : t.peerRwnd ≤ a.toNat
  sends : Sends (Sent.Fits a) s t

section

variable {s t u : Sender} {c : Config} {d : ℕ} {a : UInt32} {e : SenderEvent}

theorem lt_of_le_toNat (h : s.peerRwnd ≤ a.toNat) : s.peerRwnd < 2 ^ 32 := h.trans_lt a.toNat_lt

theorem Resends.sends (h : Resends s t) : Sends (Sent.Fits a) s t := by
  refine h.mono fun r hr => ?_
  rw [Sent.Fits, if_pos hr.1]
  exact hr.2

theorem Still.within (h : Still s t) (hs : s.peerRwnd ≤ a.toNat) : Within a s t :=
  ⟨h.peerRwnd ▸ hs, .of_eq h.sent⟩

section

variable (hs : s.peerRwnd ≤ a.toNat)
include hs

theorem within_sendMuch (ht : s.sendMuch c = some t) : Within a s t := by
  refine sendMuch_keeps (I := Within a s) (fun u v hu hq => ?_) (fun u v size n hu hfits hn => ?_)
    (Still.rfl.within hs) ht
  · exact ⟨hq.peerRwnd ▸ hu.peerRwnd, hu.sends.trans (.of_eq hq.sent)⟩
  · constructor
    · have := hu.peerRwnd
      rw [hn.peerRwnd]
      split_ifs <;> omega
    · refine hu.sends.trans ⟨_, hn.sent, List.forall_mem_singleton.2 ?_⟩
      rw [Sent.Fits, if_neg Bool.false_ne_true]
      exact hfits.symm.imp_right fun hle => ⟨hle, hu.peerRwnd⟩

theorem within_processChunk {x : InChunk} (hx : s.CoversChunk x)
    (ht : s.processChunk c x = some t) :
    t.peerRwnd ≤ (s.advertised a x).toNat ∧ Resends s t := by
  have hstill {u : Sender} (hu : Still s u) (ha : s.advertised a x = a) :
      u.peerRwnd ≤ (s.advertised a x).toNat ∧ Resends s u := by
    rw [ha, hu.peerRwnd]
    exact ⟨hs, hu.resends⟩
  have hstate (hc : s.state ≠ .closed) (hw : s.state ≠ .cookieWait) (he : s.state ≠ .established) :
      s.advertised a x = a := by
    unfold advertised
    split
    · exact if_neg hc
    · exact if_neg hw
    · exact if_neg fun h => he h.1
    · rfl
  unfold processChunk at ht
  split at ht
  case h_1 hc =>
    cases x with
    | init arwnd =>
      obtain rfl := some.inj ht
      exact ⟨(congrArg UInt32.toNat (if_pos hc)).ge, .of_eq rfl⟩
    | initAck arwnd =>
      obtain rfl := some.inj ht
      exact hstill Still.rfl (if_neg (by simp [hc]))
    | cookieEcho =>
      obtain rfl := some.inj ht
      exact hstill ⟨rfl, rfl⟩ rfl
    | sack k =>
      obtain rfl := some.inj ht
      exact hstill Still.rfl (if_neg (by simp [hc]))
    | _ => exact hstill (some.inj ht ▸ Still.rfl) rfl
  case h_2 hw =>
    split at ht
    · obtain rfl := some.inj ht
      exact ⟨(congrArg UInt32.toNat (if_pos hw)).ge, .of_eq rfl⟩
    · exact absurd ht (some_ne_none _).symm
  case h_3 hc =>
    refine hstill ?_ (hstate (by simp [hc]) (by simp [hc]) (by simp [hc]))
    obtain rfl := some.inj ht
    have hdests := still_withDests (s := { s with t1CookiePending := false, state := .established })
      fun x => { x with status := .unconfirmed, heartbeatPending := true }
    exact ⟨hdests.peerRwnd, hdests.sent⟩
  case h_4 he =>
    cases x with
    | init arwnd =>
      obtain rfl := some.inj ht
      exact hstill Still.rfl (if_neg (by simp [he]))
    | initAck arwnd =>
      obtain rfl := some.inj ht
      exact hstill Still.rfl (if_neg (by simp [he]))
    | sack k =>
      obtain ⟨u, hu, rfl⟩ := map_eq_some_iff.1 ht
      by_cases hcum : s.cumAckPoint ≤ k.cumAck
      · obtain ⟨hle, l, hl, hr⟩ := processSackChunk_window (hx ⟨he, hcum⟩) hcum hu
        exact ⟨hle.trans (congrArg UInt32.toNat (if_pos ⟨he, hcum⟩)).ge, l, hl, hr⟩
      · -- a stale one
        rw [processSackChunk, if_pos (not_le.1 hcum)] at hu
        obtain rfl := some.inj hu
        have hdests := still_withDests (s := s) fun x =>
          { x with numNewlyAckedBytes := 0, firstOutstanding := none }
        exact hstill ⟨hdests.peerRwnd, hdests.sent⟩ (if_neg fun h => hcum h.2)
    | heartbeatAck d =>
      have hack : Still s (s.processHeartbeatAckChunk d) := by
        unfold processHeartbeatAckChunk
        dsimp only
        split_ifs <;> exact ⟨rfl, rfl⟩
      dsimp only at ht
      split_ifs at ht
      · obtain rfl := some.inj ht
        exact hstill ⟨hack.peerRwnd, hack.sent⟩ rfl
      · obtain rfl := some.inj ht
        exact hstill hack rfl
    | _ => exact hstill (some.inj ht ▸ Still.rfl) rfl

theorem within_runChunks {chunks : List InChunk} {as : List Unit}
    (hc : (chunkMachine c).RunsWith CoversChunk s chunks)
    (hrun : (chunkMachine c).run s chunks = some (t, as)) :
    t.peerRwnd ≤ (advertisedBy c s a chunks).toNat ∧ Resends s t := by
  induction chunks generalizing s a as with
  | nil =>
    obtain ⟨rfl, -⟩ : s = t ∧ [] = as := by simpa using hrun
    exact ⟨hs, Still.rfl.resends⟩
  | cons x chunks ih =>
    cases hstep : (chunkMachine c).step s x with
    | none => simp [Machine.run, hstep] at hrun
    | some r =>
      obtain ⟨u, b⟩ := r
      have hu := processChunk_of_step hstep
      rw [Machine.run_cons _ chunks hstep] at hrun
      obtain ⟨q, hq, heq⟩ := map_eq_some_iff.1 hrun
      obtain ⟨rfl, -⟩ := Prod.mk.inj heq
      obtain ⟨hle, hresends⟩ := within_processChunk hs hc.1 hu
      obtain ⟨hle', hresends'⟩ := ih hle (hc.2 u b hstep) hq
      rw [advertisedBy, hu]
      exact ⟨hle', hresends.trans hresends'⟩

theorem within_afterChunks (ht : s.afterChunks c = some t) :
    Within a s t := by
  unfold afterChunks at ht
  dsimp only at ht
  split_ifs at ht
  · obtain ⟨u, hu, rfl⟩ := map_eq_some_iff.1 ht
    have hsent := within_sendMuch (s := { s with forwardTsnNeeded := false }) hs hu
    exact ⟨hsent.peerRwnd, hsent.sends⟩
  · exact some.inj ht ▸ Still.within ⟨rfl, rfl⟩ hs

end

theorem still_close : Still s s.close := by
  obtain ⟨g, hg⟩ := close_frame (s := s)
  rw [hg]
  exact ⟨rfl, rfl⟩

theorem within_t3Timeout (hs : s.peerRwnd ≤ a.toNat)
    (hc : ¬ s.ClosesOnError c d → s.CoversTimeout c d a) (ht : s.t3Timeout c d = some t) :
    Within a s t := by
  unfold t3Timeout at ht
  obtain ⟨⟨u, b⟩, hu, ht⟩ := bind_eq_some_iff.1 ht
  obtain ⟨⟨g, e, k, hframe⟩, htooMany⟩ := countError_frame hu
  have hcloses := htooMany.trans (closesOnError_withDest fun x => (dataTimeoutDest_frame _).2.2)
  have hstill : Still s u := hframe ▸ ⟨rfl, rfl⟩
  dsimp only at ht
  split_ifs at ht with hb
  · exact some.inj ht ▸ (hstill.trans still_close).within hs
  · obtain ⟨hfit, hroom⟩ := hc fun h => hb (hcloses.2 h)
    obtain ⟨p, hp⟩ := changePrimary_frame (s := u) (c := c) (d := d)
    obtain ⟨v, hv, ht⟩ := bind_eq_some_iff.1 ht
    rw [hp, hframe] at hv
    obtain ⟨hrwnd, hresends⟩ := timeoutRtx_window
      (s := { s with dest := g, newTxDest := e, primaryDest := p, assocErrorCount := k })
      (lt_of_le_toNat hs) hfit hv
    have hwithin : Within a s v := by
      refine ⟨?_, Resends.sends hresends⟩
      change (v.peerRwnd : ℤ) = s.timeoutRwnd d - s.timeoutPacket c d at hrwnd
      omega
    split_ifs at ht
    · exact some.inj ht ▸ ⟨hwithin.peerRwnd, hwithin.sends⟩
    · exact some.inj ht ▸ hwithin

theorem still_heartbeatTimeout (ht : s.heartbeatTimeout c d = some t) : Still s t := by
  unfold heartbeatTimeout at ht
  obtain ⟨⟨u, b⟩, hu, ht⟩ := bind_eq_some_iff.1 ht
  obtain ⟨⟨g, e, k, hframe⟩, -⟩ := countError_frame hu
  obtain ⟨p, hp⟩ := changePrimary_frame (s := u) (c := c) (d := d)
  have hstill : Still s u := hframe ▸ ⟨rfl, rfl⟩
  dsimp only at ht
  rw [hp] at ht
  split_ifs at ht
  · exact some.inj ht ▸ hstill.trans still_close
  · exact some.inj ht ▸ hstill.trans ⟨rfl, rfl⟩
  · exact some.inj ht ▸ hstill.trans ⟨rfl, rfl⟩

theorem still_bufferMessages {m : AppSend} (ht : s.bufferMessages c m = some t) : Still s t := by
  unfold bufferMessages at ht
  split at ht
  · exact some.inj ht ▸ ⟨rfl, rfl⟩
  · split_ifs at ht
    exact some.inj ht ▸ ⟨rfl, rfl⟩
  · dsimp only at ht
    split_ifs at ht
    all_goals exact some.inj ht ▸ ⟨rfl, rfl⟩

theorem within_sendmsg {m : AppSend} (hs : s.peerRwnd ≤ a.toNat) (ht : s.sendmsg c m = some t) :
    Within a s t := by
  unfold sendmsg at ht
  obtain ⟨u, hu, ht⟩ := bind_eq_some_iff.1 ht
  have hbuffered := still_bufferMessages hu
  split at ht
  · obtain rfl := some.inj ht
    exact Still.within ⟨hbuffered.peerRwnd, hbuffered.sent⟩ hs
  · split at ht
    · have hsent := within_sendMuch (hbuffered.peerRwnd ▸ hs) ht
      exact ⟨hsent.peerRwnd, (Sends.of_eq hbuffered.sent).trans hsent.sends⟩
    · exact absurd ht (some_ne_none _).symm
  · exact some.inj ht ▸ hbuffered.within hs

theorem within_reset : Within a s (s.reset c) := by
  have hclosed : Still s (if s.state = .closed then s else s.close) := by
    split_ifs
    · exact Still.rfl
    · exact still_close
  obtain ⟨g, hg⟩ := withDests_frame (s := if s.state = .closed then s else s.close) (resetDest c)
  refine ⟨Nat.zero_le _, .of_eq ?_⟩
  unfold reset
  dsimp only
  rw [hg]
  exact hclosed.sent

theorem within_act (hs : s.peerRwnd ≤ a.toNat) (hc : CoversEvent c (s, a) e)
    (ht : s.act c e = some t) : Within (advertisedBy c s a e.packet) s t := by
  cases e with
  | reset => exact some.inj ht ▸ within_reset
  | close => exact some.inj ht ▸ still_close.within hs
  | setPrimary d =>
    rw [act] at ht
    split_ifs at ht
    exact some.inj ht ▸ Still.within ⟨rfl, rfl⟩ hs
  | sendmsg m => exact within_sendmsg hs ht
  | recv chunks =>
    obtain ⟨⟨u, as⟩, hrun, ht⟩ := bind_eq_some_iff.1 ht
    obtain ⟨hle, hresends⟩ := within_runChunks hs hc hrun
    have hafter := within_afterChunks hle ht
    exact ⟨hafter.peerRwnd, hresends.sends.trans hafter.sends⟩
  | t3Timeout d =>
    rw [act] at ht
    split_ifs at ht
    exact within_t3Timeout hs hc ht
  | heartbeatTimeout d =>
    rw [act] at ht
    split_ifs at ht
    exact (still_heartbeatTimeout ht).within hs
  | heartbeatGen d =>
    rw [act] at ht
    split_ifs at ht
    exact some.inj ht ▸ Still.within ⟨rfl, rfl⟩ hs
  | cwndDegrade d =>
    rw [act] at ht
    split_ifs at ht
    exact some.inj ht ▸ Still.within ⟨rfl, rfl⟩ hs
  | t1Init | t1Cookie =>
    simp only [act, t1InitTimerExpiration, t1CookieTimerExpiration] at ht
    split_ifs at ht
    · obtain rfl := some.inj ht
      exact Still.within ⟨still_close.peerRwnd, still_close.sent⟩ hs
    · exact some.inj ht ▸ Still.within ⟨rfl, rfl⟩ hs

/-- From a `Reset` on, `uiPeerRwnd` is no more than was advertised last and all that is sent fits,
as long as every SACK finds the bytes of the marked chunks in it, and no timeout gives back more
than its packet takes or the advertised window has room for. -/
theorem inWindow_of_covered (c : Config) (s : Sender) (es : List SenderEvent)
    (h : (windowMachine c).RunsWith (CoversEvent c) (s.reset c, 0) es) :
    (windowMachine c).RunsWith (InWindow c) (s.reset c, 0) es := by
  have hrun : (windowMachine c).RunsWith (fun _ _ => True) (s.reset c, 0) es :=
    Machine.runsWith_true _ _ es
  refine (Machine.RunsWith.congr (I := fun x => x.1.peerRwnd ≤ x.2.toNat) ?_ ?_ h
    (Nat.zero_le _)).1 hrun
  · intro x e hx he
    refine iff_of_true trivial fun t ht => ?_
    have hwithin := within_act hx he ht
    obtain ⟨l, hl, hr⟩ := hwithin.sends
    rw [hl, List.drop_left]
    exact ⟨fun _ => hwithin.peerRwnd, hr⟩
  · rintro x e y b hx he - hstep
    obtain ⟨t, ht, heq⟩ := map_eq_some_iff.1 hstep
    obtain ⟨rfl, -⟩ := Prod.mk.inj heq
    exact (within_act hx he ht).peerRwnd

end

/-- The sender of the sample, with a stream that is reliable. -/
def reliableSender : Sender := { sampleSender with numUnrelStreams := 0 }

/-- Three messages are sent and time out; then the first of them is acked. -/
def timeoutThenSack : List SenderEvent :=
  [.sendmsg (.bytes 1000), .sendmsg (.bytes 1000), .sendmsg (.bytes 1000), .recv [.initAck 4000],
    .recv [.cookieAck], .recv [.heartbeatAck 1], .t3Timeout 1,
    .recv [.sack ⟨1, 4000, 0, fun _ => (0, 0)⟩]]

/-- The retransmission of the first one times out as well, and the others are marked again. -/
def secondTimeout : List SenderEvent := timeoutThenSack.take 7 ++ [.t3Timeout 1]

theorem inWindow_of_covered_timeoutThenSack :
    (windowMachine sampleConfig).RunsWith (InWindow sampleConfig)
      (reliableSender.reset sampleConfig, 0) timeoutThenSack :=
  inWindow_of_covered sampleConfig reliableSender timeoutThenSack (by decide +kernel)

theorem not_inWindow_secondTimeout :
    ¬ (windowMachine sampleConfig).RunsWith (InWindow sampleConfig)
      (reliableSender.reset sampleConfig, 0) secondTimeout := by
  decide +kernel

end Sender

end Ns2.Sctp
