import Ns2.Sctp.SackBooks

/-! When the outstanding bytes of the destinations are those of the chunks in the send buffer,
over whole runs. -/

namespace Ns2.Sctp

open Option

/-- The chunks that are received. -/
def SenderEvent.packet : SenderEvent → List InChunk
  | .recv chunks => chunks
  | _ => []

namespace Sender

/-- The outstanding bytes of every destination are those of the chunks in the send buffer. -/
def Accounts (s : Sender) : Prop := ∀ d ∈ s.destList,
  (s.dest d).outstandingBytes = outstandingOn d s.sendBuffer ∧ 0 ≤ (s.dest d).outstandingBytes

/-- The SACK is processed, and has more newly acked bytes than outstanding ones. -/
def Clamps (c : Config) (s : Sender) : InChunk → Prop
  | .sack k => s.state = .established ∧ s.cumAckPoint ≤ k.cumAck ∧ ∃ d ∈ s.destList,
      ((s.ackChunks c k).1.dest d).outstandingBytes <
        ((s.ackChunks c k).1.dest d).numNewlyAckedBytes
  | _ => False

/-- The event leaves the bytes accounted for, and no clamp is taken. -/
structure Accounted (c : Config) (s : Sender) (e : SenderEvent) : Prop where
  accounts : ∀ t ∈ s.act c e, t.Accounts
  clamps : (chunkMachine c).RunsWith (fun s x => ¬ s.Clamps c x) s e.packet

/-- The bytes on `d` of the chunks that were given up, and whose gap ack the chunk withdraws. -/
def miscounted (s : Sender) (d : ℕ) : InChunk → ℤ
  | .sack k => if s.state = .established ∧ s.cumAckPoint ≤ k.cumAck then withdrawn k s d else 0
  | _ => 0

def NothingOutstanding (s : Sender) : Prop := ∀ d ∈ s.destList, outstandingOn d s.sendBuffer = 0

/-- One more error of `d` closes the association. -/
def ClosesOnError (c : Config) (s : Sender) (d : ℕ) : Prop :=
  (s.dest d).status = .active ∧ c.associationMaxRetrans < s.assocErrorCount + 1

/-- The event happens where the code goes wrong. -/
def Miscounts (c : Config) (s : Sender) : SenderEvent → Prop
  | .close => ¬ s.NothingOutstanding
  | .recv chunks => ¬ (chunkMachine c).RunsWith (fun s x => ∀ d ∈ s.destList, s.miscounted d x = 0)
      s chunks
  | .t3Timeout d | .heartbeatTimeout d => s.ClosesOnError c d ∧ ¬ s.NothingOutstanding
  | .t1Init | .t1Cookie => c.maxInitRetransmits < s.initTryCount + 1 ∧ ¬ s.NothingOutstanding
  | _ => False

def Safe (c : Config) (s : Sender) (e : SenderEvent) : Prop :=
  (s.act c e).isSome → ¬ s.Miscounts c e

instance (s : Sender) : Decidable s.Accounts := by
  unfold Accounts
  infer_instance

instance (s : Sender) : Decidable s.NothingOutstanding := by
  unfold NothingOutstanding
  infer_instance

instance (c : Config) (s : Sender) (d : ℕ) : Decidable (s.ClosesOnError c d) := by
  unfold ClosesOnError
  infer_instance

instance (c : Config) (s : Sender) : (x : InChunk) → Decidable (s.Clamps c x)
  | .sack k => by
    unfold Clamps
    infer_instance
  | .init _ | .initAck _ | .cookieEcho | .cookieAck | .data | .forwardTsn | .heartbeat
  | .heartbeatAck _ => isFalse id

instance (c : Config) (s : Sender) : (e : SenderEvent) → Decidable (s.Miscounts c e)
  | .close | .recv _ | .t3Timeout _ | .heartbeatTimeout _ | .t1Init | .t1Cookie => by
    unfold Miscounts
    infer_instance
  | .reset | .setPrimary _ | .sendmsg _ | .heartbeatGen _ | .cwndDegrade _ => isFalse id

instance (c : Config) (s : Sender) (e : SenderEvent) : Decidable (s.Safe c e) := by
  unfold Safe
  infer_instance

instance (c : Config) (s : Sender) (e : SenderEvent) : Decidable (s.Accounted c e) :=
  decidable_of_iff ((∀ t ∈ s.act c e, t.Accounts) ∧
    (chunkMachine c).RunsWith (fun s x => ¬ s.Clamps c x) s e.packet)
    ⟨fun h => ⟨h.1, h.2⟩, fun h => ⟨h.1, h.2⟩⟩

section

variable {L : List ℕ} {δ : ℕ → ℤ} {d : ℕ} {s t u : Sender} {c : Config}
variable {f : Dest → Dest} {b : Bool} {e : SenderEvent}

theorem Books.accounts_iff (h : Books L δ s) :
    s.Accounts ↔ ∀ d ∈ L, δ d = 0 := by
  unfold Accounts
  rw [h.destList]
  refine forall₂_congr fun d hd => ?_
  have hout := h.outstanding d hd
  have hnonneg := outstandingOn_nonneg d s.sendBuffer
  constructor
  · rintro ⟨heq, -⟩
    omega
  · intro h0
    constructor <;> omega

theorem miscounted_nonneg (x : InChunk) : 0 ≤ s.miscounted d x := by
  unfold miscounted withdrawn
  split
  · split_ifs
    · exact SackChunk.withdrawnOn_nonneg d _ 0 _
    · exact le_rfl
    · exact le_rfl
  · exact le_rfl

theorem Books.withDests (h : Books L δ s) (hf : ∀ x, (f x).outstandingBytes = x.outstandingBytes) :
    Books L δ (s.withDests f) := by
  have hdest (d : ℕ) := dest_withDests (d := d) (s := s) (f := f) (h.destList ▸ h.nodup)
  obtain ⟨g, hg⟩ := withDests_frame (s := s) f
  rw [hg] at hdest ⊢
  refine ⟨⟨h.nodup, h.destList, h.primaryDest, h.newTxDest, h.booked⟩, fun d hd => ?_⟩
  refine (congrArg Dest.outstandingBytes (hdest d)).trans ?_
  rw [if_pos (h.destList ▸ hd), hf]
  exact h.outstanding d hd

theorem Books.not_clamps (h : Books L δ s) (hδ : ∀ d ∈ L, 0 ≤ δ d) (x : InChunk) :
    ¬ s.Clamps c x := by
  unfold Clamps
  split
  · rintro ⟨-, hcum, d, hd, hlt⟩
    exact absurd hlt (not_lt.2 ((h.processSackChunk hδ hcum).1 d (h.destList ▸ hd)))
  · exact id

theorem Books.processHeartbeatAckChunk (h : Books L δ s) :
    Books L δ (s.processHeartbeatAckChunk d) := by
  have hcount : Quiet s { s with assocErrorCount := 0 } :=
    ⟨⟨rfl, rfl, rfl, .inl rfl, rfl, rfl, rfl⟩, fun _ => rfl, fun _ => rfl, rfl, rfl⟩
  have hactive : Quiet s ({ s with assocErrorCount := 0 }.withDest d fun x =>
      { x with status := .active, errorCount := 0, heartbeatPending := false }) :=
    hcount.trans (quiet_withDest rfl rfl)
  unfold Sender.processHeartbeatAckChunk
  dsimp only
  split_ifs
  · exact (h.quiet hactive).quiet ⟨⟨rfl, rfl, rfl, .inr rfl, rfl, rfl, rfl⟩, fun _ => rfl, fun _ => rfl, rfl, rfl⟩
  · exact h.quiet hactive

theorem Books.processChunk {x : InChunk} (h : Books L δ s) (hδ : ∀ d ∈ L, 0 ≤ δ d)
    (ht : s.processChunk c x = some t) : Books L (fun d => δ d + s.miscounted d x) t := by
  have hother {u : Sender} (hx : ∀ d, s.miscounted d x = 0) (hu : Books L δ u) :
      Books L (fun d => δ d + s.miscounted d x) u :=
    ⟨hu.toWired, fun d hd => (hu.outstanding d hd).trans (by rw [hx, add_zero])⟩
  have hstate (hs : s.state ≠ .established) (d : ℕ) : s.miscounted d x = 0 := by
    unfold miscounted
    split
    · exact if_neg fun h => hs h.1
    · rfl
  unfold Sender.processChunk at ht
  split at ht
  case h_1 hs =>
    refine hother (hstate (by simp [hs])) ?_
    split at ht
    all_goals obtain rfl := some.inj ht
    · exact h.of_eq rfl rfl rfl rfl rfl
    · exact h.of_eq rfl rfl rfl rfl rfl
    · exact h
  case h_2 hs =>
    refine hother (hstate (by simp [hs])) ?_
    split at ht
    · obtain rfl := some.inj ht
      exact h.of_eq rfl rfl rfl rfl rfl
    · exact absurd ht (some_ne_none _).symm
  case h_3 hs =>
    refine hother (hstate (by simp [hs])) ?_
    obtain rfl := some.inj ht
    have hestablished := h.of_eq (t := { s with t1CookiePending := false, state := .established })
      rfl rfl rfl rfl rfl
    have hunconfirmed := hestablished.withDests
      (f := fun x => { x with status := .unconfirmed, heartbeatPending := true }) fun _ => rfl
    exact hunconfirmed.of_eq rfl rfl rfl rfl rfl
  case h_4 hs =>
    cases x with
    | sack k =>
      obtain ⟨u, hu, rfl⟩ := map_eq_some_iff.1 ht
      by_cases hcum : s.cumAckPoint ≤ k.cumAck
      · obtain ⟨-, hbooks⟩ := h.processSackChunk (c := c) hδ hcum
        have hsack := (hbooks u hu).of_eq (t := { u with
          forwardTsnNeeded := u.forwardTsnNeeded || decide (u.cumAckPoint < u.advancedPeerAckPoint)
          sendNewDataChunks := true }) rfl rfl rfl rfl rfl
        refine ⟨hsack.toWired, fun d hd => (hsack.outstanding d hd).trans ?_⟩
        rw [miscounted, if_pos ⟨hs, hcum⟩]
      · -- a stale one
        refine hother (fun d => if_neg fun h => hcum h.2) ?_
        rw [Sender.processSackChunk, if_pos (not_le.1 hcum)] at hu
        obtain rfl := some.inj hu
        have hclear := h.withDests
          (f := fun x => { x with numNewlyAckedBytes := 0, firstOutstanding := none }) fun _ => rfl
        exact hclear.of_eq rfl rfl rfl rfl rfl
    | heartbeatAck d =>
      refine hother (fun _ => rfl) ?_
      dsimp only at ht
      split_ifs at ht
      · obtain rfl := some.inj ht
        exact h.processHeartbeatAckChunk.of_eq rfl rfl rfl rfl rfl
      · obtain rfl := some.inj ht
        exact h.processHeartbeatAckChunk
    | _ => exact hother (fun _ => rfl) (some.inj ht ▸ h)

theorem processChunk_of_step {x : InChunk} {a : Unit} (h : (chunkMachine c).step s x = some (t, a)) :
    s.processChunk c x = some t := by
  obtain ⟨u, hu, heq⟩ := map_eq_some_iff.1 h
  exact hu.trans (congrArg some (Prod.mk.inj heq).1)

theorem nonneg_add_miscounted (hδ : ∀ d ∈ L, 0 ≤ δ d) (x : InChunk) :
    ∀ d ∈ L, 0 ≤ δ d + s.miscounted d x :=
  fun d hd => add_nonneg (hδ d hd) (miscounted_nonneg x)

theorem Books.never_clamps (h : Books L δ s) (hδ : ∀ d ∈ L, 0 ≤ δ d) (chunks : List InChunk) :
    (chunkMachine c).RunsWith (fun s x => ¬ s.Clamps c x) s chunks := by
  have hrun : (chunkMachine c).RunsWith (fun _ _ => True) s chunks :=
    Machine.runsWith_true _ s chunks
  refine (Machine.runsWith_congr (I := fun s => ∃ δ, Books L δ s ∧ ∀ d ∈ L, 0 ≤ δ d) ?_ ?_
    ⟨δ, h, hδ⟩ chunks).1 hrun
  · rintro s x ⟨δ, h, hδ⟩
    exact iff_of_true trivial (h.not_clamps hδ x)
  · rintro s x t a ⟨δ, h, hδ⟩ - hs
    exact ⟨_, h.processChunk hδ (processChunk_of_step hs), nonneg_add_miscounted hδ x⟩

theorem Books.runChunks {chunks : List InChunk} {as : List Unit} (h : Books L δ s)
    (hδ : ∀ d ∈ L, 0 ≤ δ d) (hrun : (chunkMachine c).run s chunks = some (t, as)) :
    ∃ ε : ℕ → ℤ, (∀ d ∈ L, 0 ≤ ε d) ∧ Books L (fun d => δ d + ε d) t ∧
      ((∀ d ∈ L, ε d = 0) ↔
        (chunkMachine c).RunsWith (fun s x => ∀ d ∈ s.destList, s.miscounted d x = 0) s chunks) := by
  induction chunks generalizing s δ as with
  | nil =>
    obtain ⟨rfl, -⟩ : s = t ∧ [] = as := by simpa using hrun
    refine ⟨fun _ => 0, fun _ _ => le_rfl, ?_, iff_of_true (fun _ _ => rfl) trivial⟩
    exact ⟨h.toWired, fun d hd => (h.outstanding d hd).trans (by rw [add_zero])⟩
  | cons x chunks ih =>
    cases hs : (chunkMachine c).step s x with
    | none => simp [Machine.run, hs] at hrun
    | some r =>
      obtain ⟨u, a⟩ := r
      rw [Machine.run_cons _ chunks hs] at hrun
      obtain ⟨q, hq, heq⟩ := map_eq_some_iff.1 hrun
      obtain ⟨rfl, -⟩ := Prod.mk.inj heq
      have hu := h.processChunk hδ (processChunk_of_step hs)
      obtain ⟨ε, hε, hbooks, hiff⟩ := ih hu (nonneg_add_miscounted hδ x) hq
      refine ⟨fun d => s.miscounted d x + ε d, fun d hd => add_nonneg (miscounted_nonneg x) (hε d hd),
        ⟨hbooks.toWired, fun d hd => (hbooks.outstanding d hd).trans (by rw [add_assoc])⟩, ?_⟩
      rw [Machine.runsWith_cons_iff hs, ← hiff, h.destList, ← forall₂_and]
      refine forall₂_congr fun d hd => ?_
      exact add_eq_zero_iff_of_nonneg (miscounted_nonneg x) (hε d hd)

theorem Books.close (h : Books L δ s) :
    Books L (fun d => δ d + outstandingOn d s.sendBuffer) s.close := by
  have hq : Quiet s (s.withDests fun x => { x with t3Pending := false, heartbeatPending := false }) :=
    quiet_withDests (fun _ => rfl) fun _ => rfl
  have hstop := h.quiet hq
  refine ⟨⟨h.nodup, hstop.destList, hstop.primaryDest, hstop.newTxDest,
    fun n hn => absurd hn List.not_mem_nil⟩, fun d hd => ?_⟩
  refine (hstop.outstanding d hd).trans ?_
  rw [hq.sendBuffer]
  change _ = 0 + _
  ring

theorem failDest_frame (ht : s.failDest c d = some t) :
    ∃ g e, t = { s with dest := g, newTxDest := e } := by
  unfold failDest at ht
  dsimp only at ht
  split_ifs at ht
  · obtain ⟨e, -, rfl⟩ := map_eq_some_iff.1 ht
    exact ⟨_, e, rfl⟩
  · exact ⟨_, s.newTxDest, (some.inj ht).symm⟩
  · exact ⟨s.dest, s.newTxDest, (some.inj ht).symm⟩

theorem countError_frame (ht : s.countError c d = some (t, b)) :
    (∃ g e k, t = { s with dest := g, newTxDest := e, assocErrorCount := k }) ∧
      (b ↔ s.ClosesOnError c d) := by
  have hstatus : ((s.withDest d fun x => { x with errorCount := x.errorCount + 1 }).dest d).status =
      (s.dest d).status := by
    rw [dest_withDest, if_pos rfl]
  unfold countError at ht
  dsimp only at ht
  rw [hstatus] at ht
  split_ifs at ht with hactive
  · obtain ⟨u, hu, heq⟩ := map_eq_some_iff.1 ht
    obtain ⟨rfl, rfl⟩ := Prod.mk.inj heq
    obtain ⟨g, e, rfl⟩ := failDest_frame hu
    exact ⟨⟨g, e, s.assocErrorCount + 1, rfl⟩,
      fun hlt => ⟨hactive, of_decide_eq_true hlt⟩, fun hc => decide_eq_true hc.2⟩
  · obtain ⟨rfl, rfl⟩ := Prod.mk.inj (some.inj ht)
    exact ⟨⟨_, s.newTxDest, s.assocErrorCount, rfl⟩,
      iff_of_false Bool.false_ne_true fun hc => hactive hc.1⟩

theorem Books.failDest (h : Books L δ s) (ht : s.failDest c d = some t) : Books L δ t := by
  unfold Sender.failDest at ht
  dsimp only at ht
  split_ifs at ht with hmany hnew
  · have hfail := h.quiet (quiet_withDest (e := d) (f := fun x => { x with status := .inactive })
      rfl rfl)
    obtain ⟨e, he, rfl⟩ := map_eq_some_iff.1 ht
    have hmem := getNextDest_mem (hfail.destList.symm ▸ hfail.primaryDest) he
    exact ⟨⟨h.nodup, hfail.destList, hfail.primaryDest, hfail.destList ▸ hmem, hfail.booked⟩,
      hfail.outstanding⟩
  · exact some.inj ht ▸ h.quiet (quiet_withDest rfl rfl)
  · exact some.inj ht ▸ h

theorem Books.countError (h : Books L δ s) (ht : s.countError c d = some (t, b)) : Books L δ t := by
  have herror : Quiet s (s.withDest d fun x => { x with errorCount := x.errorCount + 1 }) :=
    quiet_withDest rfl rfl
  unfold Sender.countError at ht
  dsimp only at ht
  split_ifs at ht
  · obtain ⟨u, hu, heq⟩ := map_eq_some_iff.1 ht
    obtain ⟨rfl, -⟩ := Prod.mk.inj heq
    have hcounted := (h.quiet herror).of_eq (t := { (s.withDest d fun x =>
      { x with errorCount := x.errorCount + 1 }) with assocErrorCount := s.assocErrorCount + 1 })
      rfl rfl rfl rfl rfl
    exact hcounted.failDest hu
  · obtain ⟨rfl, -⟩ := Prod.mk.inj (some.inj ht)
    exact h.quiet herror

theorem changePrimary_frame : ∃ e, s.changePrimary c d = { s with primaryDest := e } := by
  unfold changePrimary
  split_ifs
  · exact ⟨s.newTxDest, rfl⟩
  · exact ⟨s.primaryDest, rfl⟩

theorem Books.changePrimary (h : Books L δ s) : Books L δ (s.changePrimary c d) := by
  unfold Sender.changePrimary
  split_ifs
  · exact ⟨⟨h.nodup, h.destList, h.newTxDest, h.newTxDest, h.booked⟩, h.outstanding⟩
  · exact h

theorem quiet_sendHeartbeat : Quiet s (s.sendHeartbeat d) := quiet_withDest rfl rfl

theorem dataTimeoutDest_frame (x : Dest) :
    (dataTimeoutDest c x).outstandingBytes = x.outstandingBytes ∧
      (dataTimeoutDest c x).numNewlyAckedBytes = x.numNewlyAckedBytes ∧
      (dataTimeoutDest c x).status = x.status := by
  unfold dataTimeoutDest
  dsimp only
  split_ifs <;> exact ⟨rfl, rfl, rfl⟩

theorem closesOnError_withDest (hf : ∀ x, (f x).status = x.status) :
    (s.withDest d f).ClosesOnError c d ↔ s.ClosesOnError c d := by
  unfold ClosesOnError
  rw [dest_withDest, if_pos rfl, hf]
  rfl

section

variable (h : Books L δ s)
include h

theorem Books.closeOnError (hu : (s.withDest d f).countError c d = some (u, b))
    (hf : ∀ x, (f x).outstandingBytes = x.outstandingBytes ∧
      (f x).numNewlyAckedBytes = x.numNewlyAckedBytes ∧ (f x).status = x.status) :
    (b ↔ s.ClosesOnError c d) ∧ Books L δ u ∧
      Books L (fun e => δ e + outstandingOn e s.sendBuffer) u.close := by
  have hexpired := h.quiet (quiet_withDest (s := s) (e := d) (hf _).1 (hf _).2.1)
  have hbooks := hexpired.countError hu
  obtain ⟨⟨g, e, k, rfl⟩, hcloses⟩ := countError_frame hu
  refine ⟨hcloses.trans (closesOnError_withDest fun x => (hf x).2.2), hbooks, ?_⟩
  exact hbooks.close

theorem Books.t3Timeout (ht : s.t3Timeout c d = some t) :
    (s.ClosesOnError c d ∧ Books L (fun e => δ e + outstandingOn e s.sendBuffer) t) ∨
      (¬ s.ClosesOnError c d ∧ Books L δ t) := by
  obtain ⟨⟨u, b⟩, hu, ht⟩ := bind_eq_some_iff.1 ht
  obtain ⟨hcloses, hbooks, hclosed⟩ := h.closeOnError hu fun x => dataTimeoutDest_frame _
  dsimp only at ht
  split_ifs at ht with hb
  · exact .inl ⟨hcloses.1 hb, some.inj ht ▸ hclosed⟩
  · refine .inr ⟨fun hc => hb (hcloses.2 hc), ?_⟩
    obtain ⟨v, hv, ht⟩ := bind_eq_some_iff.1 ht
    have hrtx := hbooks.changePrimary.timeoutRtx hv
    split_ifs at ht
    · exact some.inj ht ▸ hrtx.quiet quiet_sendHeartbeat
    · exact some.inj ht ▸ hrtx

theorem Books.heartbeatTimeout (ht : s.heartbeatTimeout c d = some t) :
    (s.ClosesOnError c d ∧ Books L (fun e => δ e + outstandingOn e s.sendBuffer) t) ∨
      (¬ s.ClosesOnError c d ∧ Books L δ t) := by
  obtain ⟨⟨u, b⟩, hu, ht⟩ := bind_eq_some_iff.1 ht
  obtain ⟨hcloses, hbooks, hclosed⟩ := h.closeOnError hu fun x => ⟨rfl, rfl, rfl⟩
  dsimp only at ht
  split_ifs at ht with hb
  · exact .inl ⟨hcloses.1 hb, some.inj ht ▸ hclosed⟩
  · exact .inr ⟨fun hc => hb (hcloses.2 hc),
      some.inj ht ▸ hbooks.changePrimary.quiet quiet_sendHeartbeat⟩
  · exact .inr ⟨fun hc => hb (hcloses.2 hc), some.inj ht ▸ hbooks.changePrimary⟩

theorem Books.bufferMessages {m : AppSend} (ht : s.bufferMessages c m = some t) :
    Books L δ t := by
  unfold Sender.bufferMessages at ht
  split at ht
  · exact some.inj ht ▸ h.of_eq rfl rfl rfl rfl rfl
  · split_ifs at ht
    exact some.inj ht ▸ h.of_eq rfl rfl rfl rfl rfl
  · split_ifs at ht
    all_goals exact some.inj ht ▸ h.of_eq rfl rfl rfl rfl rfl

theorem Books.sendmsg {m : AppSend} (ht : s.sendmsg c m = some t) :
    Books L δ t := by
  obtain ⟨u, hu, ht⟩ := bind_eq_some_iff.1 ht
  have hbuffered := h.bufferMessages hu
  split at ht
  · exact some.inj ht ▸ hbuffered.of_eq rfl rfl rfl rfl rfl
  · split at ht
    · exact hbuffered.sendMuch ht
    · exact absurd ht (some_ne_none _).symm
  · exact some.inj ht ▸ hbuffered

theorem Books.afterChunks (ht : s.afterChunks c = some t) : Books L δ t := by
  have hforward := h.of_eq (t := { s with forwardTsnNeeded := false }) rfl rfl rfl rfl rfl
  unfold Sender.afterChunks at ht
  dsimp only at ht
  split_ifs at ht
  · obtain ⟨u, hu, rfl⟩ := map_eq_some_iff.1 ht
    exact (hforward.sendMuch hu).of_eq rfl rfl rfl rfl rfl
  · exact some.inj ht ▸ hforward

end

theorem close_frame : ∃ g, s.close = { s with
    dest := g, state := .closed, t1InitPending := false, t1CookiePending := false
    sendBuffer := [], appLayerBuffer := [] } := by
  obtain ⟨g, hg⟩ := withDests_frame (s := s) fun x =>
    { x with t3Pending := false, heartbeatPending := false }
  refine ⟨g, ?_⟩
  unfold close
  rw [hg]

theorem books_reset (c : Config) (hl : s.destList.Nodup) (hp : s.primaryDest ∈ s.destList)
    (hn : s.newTxDest ∈ s.destList) : Books s.destList (fun _ => 0) (s.reset c) := by
  have hclosed : ∃ u, (if s.state = .closed then s else s.close) = u ∧ u.destList = s.destList ∧
      u.primaryDest = s.primaryDest ∧ u.newTxDest = s.newTxDest := by
    refine ⟨_, rfl, ?_⟩
    split_ifs
    · exact ⟨rfl, rfl, rfl⟩
    · obtain ⟨g, hg⟩ := close_frame (s := s)
      rw [hg]
      exact ⟨rfl, rfl, rfl⟩
  obtain ⟨u, hu, hlist, hprimary, hnew⟩ := hclosed
  have hdest (d : ℕ) := dest_withDests (d := d) (s := u) (f := resetDest c) (hlist ▸ hl)
  obtain ⟨g, hg⟩ := withDests_frame (s := u) (resetDest c)
  unfold Sender.reset
  rw [hu]
  dsimp only
  rw [hg] at hdest ⊢
  refine ⟨⟨hl, hlist, hprimary ▸ hp, hnew ▸ hn, fun n hn => absurd hn List.not_mem_nil⟩,
    fun d hd => ?_⟩
  refine (congrArg Dest.outstandingBytes (hdest d)).trans ?_
  rw [if_pos (hlist ▸ hd)]
  rfl

theorem Books.cwndDegrade (h : Books L δ s) : Books L δ (s.cwndDegrade c d) := by
  refine h.quiet (quiet_withDest ?_ ?_)
  all_goals split_ifs <;> rfl

/-- What an event counts too much. -/
structure Counted (L : List ℕ) (c : Config) (s : Sender) (e : SenderEvent) (ε : ℕ → ℤ) (t : Sender) :
    Prop where
  nonneg : ∀ d ∈ L, 0 ≤ ε d
  books : Books L ε t
  zero_iff : (∀ d ∈ L, ε d = 0) ↔ ¬ s.Miscounts c e

theorem Books.counted (h : Books L (fun _ => 0) t) (he : ¬ s.Miscounts c e) :
    Counted L c s e (fun _ => 0) t :=
  ⟨fun _ _ => le_rfl, h, iff_of_true (fun _ _ => rfl) he⟩

theorem Books.close_tried (h : Books L δ s) (n : ℕ) (b b' : Bool) :
    Books L (fun d => δ d + outstandingOn d s.sendBuffer)
      { s with initTryCount := n, t1InitPending := b, t1CookiePending := b' }.close := by
  have htried : Books L δ { s with initTryCount := n, t1InitPending := b, t1CookiePending := b' } :=
    h.of_eq rfl rfl rfl rfl rfl
  exact htried.close

theorem Books.counted_close (hl : s.destList = L)
    (h : Books L (fun d => 0 + outstandingOn d s.sendBuffer) t)
    (he : s.Miscounts c e ↔ ¬ s.NothingOutstanding) :
    Counted L c s e (fun d => outstandingOn d s.sendBuffer) t where
  nonneg d _ := outstandingOn_nonneg d s.sendBuffer
  books := ⟨h.toWired, fun d hd => (h.outstanding d hd).trans (by rw [zero_add])⟩
  zero_iff := by
    rw [he, not_not, NothingOutstanding, hl]

theorem Books.act (h : Books L (fun _ => 0) s) (ht : s.act c e = some t) :
    ∃ ε, Counted L c s e ε t := by
  cases e with
  | reset =>
    obtain rfl := some.inj ht
    have hreset := books_reset c (h.destList ▸ h.nodup) (h.destList ▸ h.primaryDest)
      (h.destList ▸ h.newTxDest)
    rw [h.destList] at hreset
    exact ⟨_, hreset.counted id⟩
  | close =>
    obtain rfl := some.inj ht
    exact ⟨_, h.close.counted_close h.destList Iff.rfl⟩
  | setPrimary d =>
    rw [Sender.act] at ht
    split_ifs at ht with hd
    obtain rfl := some.inj ht
    have hd' : d ∈ L := h.destList ▸ hd
    exact ⟨_, Books.counted ⟨⟨h.nodup, h.destList, hd', hd', h.booked⟩, h.outstanding⟩ id⟩
  | sendmsg m => exact ⟨_, (h.sendmsg ht).counted id⟩
  | recv chunks =>
    obtain ⟨⟨u, as⟩, hrun, ht⟩ := bind_eq_some_iff.1 ht
    obtain ⟨ε, hε, hbooks, hiff⟩ := h.runChunks (fun _ _ => le_rfl) hrun
    refine ⟨ε, hε, ?_, hiff.trans not_not.symm⟩
    have hsent := hbooks.afterChunks ht
    exact ⟨hsent.toWired, fun d hd => (hsent.outstanding d hd).trans (by rw [zero_add])⟩
  | t3Timeout d =>
    rw [Sender.act] at ht
    split_ifs at ht
    rcases h.t3Timeout ht with ⟨hclose, hbooks⟩ | ⟨hclose, hbooks⟩
    · exact ⟨_, hbooks.counted_close h.destList (and_iff_right hclose)⟩
    · exact ⟨_, hbooks.counted fun hm => hclose hm.1⟩
  | heartbeatTimeout d =>
    rw [Sender.act] at ht
    split_ifs at ht
    rcases h.heartbeatTimeout ht with ⟨hclose, hbooks⟩ | ⟨hclose, hbooks⟩
    · exact ⟨_, hbooks.counted_close h.destList (and_iff_right hclose)⟩
    · exact ⟨_, hbooks.counted fun hm => hclose hm.1⟩
  | heartbeatGen d =>
    rw [Sender.act] at ht
    split_ifs at ht
    exact ⟨_, Books.counted (some.inj ht ▸ h.quiet quiet_sendHeartbeat) id⟩
  | cwndDegrade d =>
    rw [Sender.act] at ht
    split_ifs at ht
    exact ⟨_, Books.counted (some.inj ht ▸ h.cwndDegrade) id⟩
  | t1Init | t1Cookie =>
    simp only [Sender.act, t1InitTimerExpiration, t1CookieTimerExpiration] at ht
    split_ifs at ht with hpending hmany
    · obtain rfl := some.inj ht
      exact ⟨_, (h.close_tried _ _ _).counted_close h.destList (and_iff_right hmany)⟩
    · have hretry : Books L (fun _ => 0) t := some.inj ht ▸ h.of_eq rfl rfl rfl rfl rfl
      exact ⟨_, hretry.counted fun hm => hmany hm.1⟩

theorem accounted_iff_safe_of_books (h : Books L (fun _ => 0) s) :
    s.Accounted c e ↔ s.Safe c e := by
  have hclamps : (chunkMachine c).RunsWith (fun s x => ¬ s.Clamps c x) s e.packet :=
    h.never_clamps (fun _ _ => le_rfl) e.packet
  constructor
  · rintro ⟨haccounts, -⟩ hsome
    obtain ⟨t, ht⟩ := isSome_iff_exists.1 hsome
    obtain ⟨ε, hε⟩ := h.act ht
    exact hε.zero_iff.1 (hε.books.accounts_iff.1 (haccounts t ht))
  · intro hsafe
    refine ⟨fun t ht => ?_, hclamps⟩
    obtain ⟨ε, hε⟩ := h.act ht
    refine hε.books.accounts_iff.2 (hε.zero_iff.2 (hsafe ?_))
    rw [ht]
    rfl

/-- From a `Reset` on, the outstanding bytes are those of the chunks in the send buffer after every
event exactly when no event closes the association over outstanding data, and no SACK withdraws the
gap ack of a chunk that was given up. -/
theorem accounted_iff_safe (c : Config) (s : Sender) (hl : s.destList.Nodup)
    (hp : s.primaryDest ∈ s.destList) (hn : s.newTxDest ∈ s.destList) (es : List SenderEvent) :
    (machine c).RunsWith (Accounted c) (s.reset c) es ↔
      (machine c).RunsWith (Safe c) (s.reset c) es := by
  refine Machine.runsWith_congr (I := Books s.destList fun _ => 0)
    (fun s e h => accounted_iff_safe_of_books h) (fun s e t a h hok hs => ?_)
    (books_reset c hl hp hn) es
  obtain ⟨u, hu, heq⟩ := map_eq_some_iff.1 hs
  obtain ⟨rfl, -⟩ := Prod.mk.inj heq
  obtain ⟨ε, hε⟩ := h.act hu
  have hzero := hε.books.accounts_iff.1 (hok.accounts u hu)
  refine ⟨hε.books.toWired, fun d hd => (hε.books.outstanding d hd).trans ?_⟩
  rw [hzero d hd]

end

def sampleConfig : Config where
  maxPayloadSize := 1480
  maxDataSize := 1480
  dataChunkSize := 1468
  initialCwnd := 2
  initialSsthresh := 65536
  fastRtxTrigger := 4
  reliability := 0
  unordered := false
  pathMaxRetrans := 5
  associationMaxRetrans := 10
  changePrimaryThresh := 5
  maxInitRetransmits := 8
  heartbeatInterval := 30
  rtxToAlt := .on
  dormantAction := .hop
  useMaxBurst := true

def sampleSender : Sender where
  state := .closed
  dataSource := .application
  nextTsn := 0
  nextStreamId := 0
  numOutStreams := 1
  numUnrelStreams := 1
  outStreams := fun _ => ⟨.reliable, 0⟩
  appLayerBuffer := []
  sendBuffer := []
  destList := [1]
  dest := fun _ => ⟨0, 0, 0, 0, 0, false, false, false, 0, .active, false, none⟩
  primaryDest := 1
  newTxDest := 1
  peerRwnd := 0
  cumAckPoint := 0
  advancedPeerAckPoint := 0
  highestTsnNewlyAcked := 0
  recover := 0
  markedChunksPending := false
  applyMaxBurst := false
  forwardTsnNeeded := false
  sendNewDataChunks := false
  burstLength := 0
  assocErrorCount := 0
  initTryCount := 0
  t1InitPending := false
  t1CookiePending := false
  sent := []

/-- Three messages are sent and time out. The SACKs for the chunks 2 and 3 arrive in the wrong
order. -/
def staleSack : List SenderEvent :=
  [.sendmsg (.bytes 1400), .sendmsg (.bytes 1400), .sendmsg (.bytes 1400), .recv [.initAck 5000],
    .recv [.cookieAck], .recv [.heartbeatAck 1], .t3Timeout 1,
    .recv [.sack ⟨0, 2200, 1, fun _ => (2, 3)⟩], .recv [.sack ⟨0, 3600, 1, fun _ => (3, 3)⟩]]

/-- Without the late SACK. -/
theorem accounted_iff_safe_inOrder :
    (machine sampleConfig).RunsWith (Accounted sampleConfig) (sampleSender.reset sampleConfig)
      (staleSack.take 8) :=
  (accounted_iff_safe sampleConfig sampleSender (by decide) (by decide) (by decide)
    (staleSack.take 8)).2 (by decide +kernel)

theorem not_accounted_staleSack :
    ¬ (machine sampleConfig).RunsWith (Accounted sampleConfig) (sampleSender.reset sampleConfig)
      staleSack := by
  decide +kernel

end Sender

end Ns2.Sctp
