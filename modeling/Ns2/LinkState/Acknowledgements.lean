import Ns2.LinkState.FloodingSteps

/-! The retransmission manager of a node with its timers: whether an acknowledgement finds the record of
its message, and when the timer of a peer is pending. -/

namespace Ns2.LinkState

open Option Function Bool

/-- What `sendAck` makes of a message: the id of an LSA, the sequence number of a topology message. -/
def ackOf (neighborId : ℤ) (msg : LsMessage) : LsMessage :=
  match msg.type with
  | .tpm => ⟨.tpmAck, 0, msg.sequenceNumber, neighborId, .null⟩
  | _ => ⟨.lsaAck, 0, msg.messageId, msg.originNodeId, .null⟩

theorem receiveLSA_acks {msg : LsMessage} (hlsa : msg.type = .lsa) (x : LsAct) (senderId : ℤ) :
    (senderId, ackOf senderId msg) ∈ (x.receiveLSA senderId msg).sent := by
  simp only [LsAct.receiveLSA, LsAct.toPeers_false, ackOf, hlsa]
  split_ifs
  · simp [LsAct.sendMessage]
  · split <;> simp [LsAct.sendMessage]

theorem receiveTopo_acks {msg : LsMessage} (htpm : msg.type = .tpm) {x y : LsAct} {neighborId : ℤ}
    {topo : LsDatabase} (h : x.receiveTopo neighborId msg topo = some y) :
    (neighborId, ackOf neighborId msg) ∈ y.sent := by
  have hmem : (neighborId, ackOf neighborId msg) ∈ (x.sendMessage neighborId (ackOf neighborId msg)).sent := by
    simp [LsAct.sendMessage]
  simp only [ackOf, htpm] at hmem ⊢
  unfold LsAct.receiveTopo at h
  by_cases hnew : x.routing.tpmHistory.isNewMessage msg = true
  · simp only [LsAct.sendMessage, hnew, not_true_eq_false, if_false] at h hmem
    refine foldlM_keeps (Q := fun y : LsAct => _ ∈ y.sent) (fun e x y hxy hx => ?_) h hmem
    unfold LsAct.receiveRecord LsAct.regenAndSend at hxy
    split_ifs at hxy
    · obtain rfl := some.inj hxy
      exact hx
    · obtain ⟨⟨id, x'⟩, hnew, rfl⟩ := map_eq_some_iff.1 hxy
      unfold LsAct.newMessage at hnew
      split_ifs at hnew
      obtain ⟨-, rfl⟩ := Prod.mk.inj (some.inj hnew)
      simpa only [LsAct.toPeers_true] using hx
    · obtain rfl := some.inj hxy
      exact hx
  · simp only [LsAct.sendMessage, hnew] at h hmem
    obtain rfl := some.inj h
    exact hmem

/-- The manager, and the peers whose timer is pending. -/
structure Retransmission where
  manager : LsRetransmissionManager
  pending : ℤ → Bool

/-- `ack` is the arrival of the acknowledgement that the peer has sent for a message. -/
inductive RetransmissionOp where
  | messageOut (peerId : ℤ) (msg : LsMessage)
  | ack (peerId neighborId : ℤ) (msg : LsMessage)
  | cancelTimer (nbrId : ℤ)
  | expire (peerId : ℤ)

namespace Retransmission

variable (s : Retransmission)

def init : Retransmission := ⟨.empty, fun _ => false⟩

/-- Something is to be acknowledged by the peer. -/
def outstanding (peerId : ℤ) : Bool := (s.manager.find peerId).any fun u => !u.isEmpty

/-- `ackIn`; `none` is the abort of `timer_.cancel()`. -/
def ackIn (peerId : ℤ) (msg : LsMessage) : Option Retransmission :=
  if s.outstanding peerId then
    let s' := { s with manager := s.manager.ackIn peerId msg }
    if s'.outstanding peerId then some s'
    else if s.pending peerId then some { s' with pending := Function.update s.pending peerId false }
    else none
  else some s

end Retransmission

/-- A timer that is not pending does not expire; `none` is an abort. -/
def retransmission : Machine Retransmission RetransmissionOp Unit where
  step s o := (fun s' => (s', ())) <$> match o with
    | .messageOut p msg => some ⟨s.manager.messageOut p msg, Function.update s.pending p true⟩
    | .ack p q msg => s.ackIn p (ackOf q msg)
    | .cancelTimer p => some (if (s.manager.find p).isSome then
        ⟨s.manager.cancelTimer p, Function.update s.pending p false⟩ else s)
    | .expire p => if s.pending p then
        if (s.manager.find p).isSome then some { s with pending := Function.update s.pending p true } else none
      else some s

namespace Retransmission

variable {s' : Retransmission} {o : RetransmissionOp}

/-- The messages that are recorded are LSAs and topology messages, whose sequence numbers are odd. -/
def Recordable : RetransmissionOp → Prop
  | .messageOut _ msg | .ack _ _ msg => msg.type = .lsa ∨ msg.type = .tpm ∧ msg.sequenceNumber % 2 = 1
  | _ => True

/-- The record of the message is there, for this peer. -/
def Recorded (s : Retransmission) (p : ℤ) (msg : LsMessage) : Prop :=
  ∃ u ∈ s.manager.find p, if msg.type = .tpm then u.tpmSeq = msg.sequenceNumber
    else ∃ x ∈ u.lsaMap.find msg.originNodeId, x.msg = msg

/-- Its record, and nothing else, is removed. -/
def discharge (s : Retransmission) (p : ℤ) (msg : LsMessage) : LsRetransmissionManager :=
  match s.manager.find p with
  | none => s.manager
  | some u => s.manager.set p <|
    if msg.type = .tpm then { u with tpmSeq := lsInvalidMessageId }
    else { u with lsaMap := u.lsaMap.erase msg.originNodeId }

def TimersMatch (s : Retransmission) : Prop := ∀ p, s.pending p = s.outstanding p

/-- Nothing aborts, a timer is pending exactly when something is outstanding, and an acknowledgement
removes the record of its message when it is there, and otherwise nothing. -/
def Right (s : Retransmission) (o : RetransmissionOp) : Prop :=
  ∃ s', retransmission.step s o = some (s', ()) ∧ s'.TimersMatch ∧ ∀ p q msg, o = .ack p q msg →
    (s.Recorded p msg → s'.manager = s.discharge p msg) ∧ (¬s.Recorded p msg → s'.manager = s.manager)

/-- The id of an LSA that is acknowledged is the sequence number in the record of its origin if and only
if that is the record of the LSA. -/
def Matches (s : Retransmission) : RetransmissionOp → Prop
  | .ack p _ msg => msg.type = .lsa → ∀ u ∈ s.manager.find p, ∀ x ∈ u.lsaMap.find msg.originNodeId,
    (x.seq = msg.messageId ↔ x.msg = msg)
  | _ => True

/-- The acknowledgement finds a record. -/
def Found (s : Retransmission) (p : ℤ) (msg : LsMessage) : Prop :=
  ∃ u ∈ s.manager.find p, if msg.type = .tpm then u.tpmSeq = msg.sequenceNumber
    else ∃ x ∈ u.lsaMap.find msg.originNodeId, x.seq = msg.messageId

variable {s : Retransmission} {p q : ℤ} {msg : LsMessage}

theorem ackIn_of_found (h : s.Found p msg) : s.manager.ackIn p (ackOf q msg) = s.discharge p msg := by
  obtain ⟨u, hu, h⟩ := h
  rw [mem_def] at hu
  unfold LsRetransmissionManager.ackIn discharge
  rcases htype : msg.type
  case tpm => simpa [htype, hu, ackOf] using fun hne => absurd h (by simpa [htype] using hne)
  all_goals
    obtain ⟨x, hx, hseq⟩ : ∃ x ∈ u.lsaMap.find msg.originNodeId, x.seq = msg.messageId := by
      simpa [htype] using h
    rw [mem_def] at hx
    simp [htype, hu, ackOf, hx, hseq]

theorem ackIn_of_not_found (h : ¬s.Found p msg) : s.manager.ackIn p (ackOf q msg) = s.manager := by
  unfold LsRetransmissionManager.ackIn
  rcases hu : s.manager.find p with _ | u
  · rfl
  · rcases htype : msg.type
    case tpm =>
      have hne : u.tpmSeq ≠ msg.sequenceNumber := fun heq => h ⟨u, hu, by simp [htype, heq]⟩
      simp [ackOf, htype, hne]
    all_goals
      rcases hx : u.lsaMap.find msg.originNodeId with _ | x
      · simp [ackOf, htype, hx]
      · have hne : x.seq ≠ msg.messageId := fun heq => h ⟨u, hu, by simp [htype, hx, heq]⟩
        simp [ackOf, htype, hx, hne]

theorem found_iff (hmsg : Recordable (.ack p q msg)) (hm : Matches s (.ack p q msg)) :
    s.Found p msg ↔ s.Recorded p msg := by
  refine exists_congr fun u => and_congr_right fun hu => ?_
  rcases hmsg with hlsa | ⟨htpm, -⟩
  · simp only [hlsa, reduceCtorEq, if_false]
    exact exists_congr fun x => and_congr_right fun hx => hm hlsa u hu x hx
  · simp only [htpm, if_true]

theorem discharge_ne {u : LsUnackPeer} (hmsg : Recordable (.ack p q msg)) (hu : s.manager.find p = some u)
    (h : if msg.type = .tpm then u.tpmSeq = msg.sequenceNumber else (u.lsaMap.find msg.originNodeId).isSome) :
    s.discharge p msg ≠ s.manager := by
  intro heq
  have hfind := congrArg (OrdMap.find p) heq
  rw [discharge, hu] at hfind
  simp only [OrdMap.find_set_self, some.injEq] at hfind
  rcases hmsg with hlsa | ⟨htpm, hodd⟩
  · simp only [hlsa, reduceCtorEq, if_false] at h hfind
    have hnone := congrArg (fun u => u.lsaMap.find msg.originNodeId) hfind
    simp only [OrdMap.find_erase, if_true] at hnone
    simp [← hnone] at h
  · simp only [htpm, if_true] at h hfind
    have hzero := congrArg LsUnackPeer.tpmSeq hfind
    simp only [lsInvalidMessageId] at hzero
    omega

theorem not_found_of_not_outstanding (hmsg : Recordable (.ack p q msg)) (h : s.outstanding p = false) :
    ¬s.Found p msg := by
  rintro ⟨u, hu, hfound⟩
  rw [mem_def] at hu
  simp only [outstanding, hu, any_some, not_eq_false', LsUnackPeer.isEmpty, and_eq_true,
    decide_eq_true_eq, List.isEmpty_iff] at h
  rcases hmsg with hlsa | ⟨htpm, hodd⟩
  · simp only [hlsa, reduceCtorEq, if_false] at hfound
    obtain ⟨x, hx, -⟩ := hfound
    simpa [h.2] using OrdMap.mem_entries.2 hx
  · simp only [htpm, if_true, h.1, lsInvalidMessageId] at hfound
    omega

theorem find_ackIn_of_ne {p' : ℤ} (h : p' ≠ p) : (s.manager.ackIn p msg).find p' = s.manager.find p' := by
  unfold LsRetransmissionManager.ackIn
  split
  · rfl
  · split
    · split_ifs
      · exact OrdMap.find_set_of_ne h _ _
      · rfl
    · split_ifs
      · exact OrdMap.find_set_of_ne h _ _
      · rfl
    · rfl

theorem outstanding_congr (h : s'.manager.find p = s.manager.find p) :
    s'.outstanding p = s.outstanding p := by
  rw [outstanding, h, outstanding]

theorem timersMatch_update {b : Bool} (hs : s.TimersMatch) (hp : s'.outstanding p = b)
    (hne : ∀ p' ≠ p, s'.manager.find p' = s.manager.find p')
    (hpending : s'.pending = Function.update s.pending p b) : s'.TimersMatch := by
  intro p'
  rw [hpending]
  by_cases heq : p' = p
  · rw [heq, update_self, hp]
  · rw [update_of_ne heq, hs, outstanding_congr (hne p' heq)]

theorem outstanding_messageOut (hmsg : Recordable (.messageOut p msg)) (pending : ℤ → Bool) :
    outstanding ⟨s.manager.messageOut p msg, pending⟩ p = true := by
  unfold outstanding LsRetransmissionManager.messageOut
  simp only [OrdMap.find_set_self, any_some, not_eq_true', LsUnackPeer.isEmpty,
    and_eq_false_iff, decide_eq_false_iff_not, List.isEmpty_eq_false_iff]
  rcases hmsg with hlsa | ⟨htpm, hodd⟩
  · right
    rw [hlsa]
    exact List.ne_nil_of_mem (OrdMap.mem_entries.2 (OrdMap.find_set_self _ _ _))
  · left
    simp only [htpm, lsInvalidMessageId]
    omega

/-- No operation aborts, and the timers match after it. -/
theorem exists_step (hs : s.TimersMatch) (ho : Recordable o) :
    ∃ s', retransmission.step s o = some (s', ()) ∧ s'.TimersMatch ∧ ∀ p q msg, o = .ack p q msg →
      s'.manager = s.manager.ackIn p (ackOf q msg) := by
  cases o with
  | messageOut p msg =>
    refine ⟨_, rfl, timersMatch_update hs (outstanding_messageOut ho _)
      (fun p' h => OrdMap.find_set_of_ne h _ _) rfl, by simp⟩
  | ack p q msg =>
    simp only [retransmission, ackIn]
    cases hout : s.outstanding p
    · refine ⟨s, rfl, hs, ?_⟩
      rintro _ _ _ ⟨⟩
      exact (ackIn_of_not_found (not_found_of_not_outstanding ho hout)).symm
    · have hpending := (hs p).trans hout
      cases hout' : outstanding { s with manager := s.manager.ackIn p (ackOf q msg) } p
      · simp only [if_true, hpending, false_eq_true, if_false]
        refine ⟨_, rfl, timersMatch_update hs hout' (fun p' h => find_ackIn_of_ne h) rfl, ?_⟩
        rintro _ _ _ ⟨⟩
        rfl
      · refine ⟨_, rfl, timersMatch_update hs hout' (fun p' h => find_ackIn_of_ne h) ?_, ?_⟩
        · rw [← hpending, update_eq_self]
        · rintro _ _ _ ⟨⟩
          rfl
  | cancelTimer p =>
    refine ⟨_, rfl, ?_, by simp⟩
    split_ifs with hp
    · obtain ⟨u, hu⟩ := isSome_iff_exists.1 hp
      refine timersMatch_update hs ?_ (fun p' h => ?_) rfl
      · simp [outstanding, LsRetransmissionManager.cancelTimer, hu, LsUnackPeer.isEmpty, LsUnackPeer.empty,
          OrdMap.empty]
      · simp only [LsRetransmissionManager.cancelTimer, hu]
        exact OrdMap.find_set_of_ne h _ _
    · exact hs
  | expire p =>
    simp only [retransmission]
    cases hp : s.pending p
    · exact ⟨s, rfl, hs, by simp⟩
    · obtain ⟨u, hu⟩ : ∃ u, s.manager.find p = some u := by
        have hout := (hs p).symm.trans hp
        rw [outstanding] at hout
        exact (any_eq_true_iff_get ..).1 hout |>.1 |> isSome_iff_exists.1
      refine ⟨⟨s.manager, Function.update s.pending p true⟩, by simp [hu], ?_, by simp⟩
      rw [← hp, update_eq_self]
      exact hs

theorem right_iff_matches (hs : s.TimersMatch) (ho : Recordable o) : Right s o ↔ Matches s o := by
  obtain ⟨s', hstep, hs', hack⟩ := exists_step hs ho
  cases o with
  | ack p q msg =>
    have hmanager := hack p q msg rfl
    constructor
    · rintro ⟨s'', hstep', -, hright⟩ hlsa u hu x hx
      obtain rfl : s' = s'' := (Prod.mk.inj (some.inj (hstep.symm.trans hstep'))).1
      obtain ⟨hrec, hnot⟩ := hright p q msg rfl
      have hne := discharge_ne ho hu (by simp [hlsa, mem_def.1 hx])
      have hmem : ∀ P : LsIdSeq → Prop, (∃ u ∈ s.manager.find p, if msg.type = .tpm then u.tpmSeq = msg.sequenceNumber
          else ∃ x ∈ u.lsaMap.find msg.originNodeId, P x) ↔ P x := fun P => by
        simp [hlsa, mem_def.1 hu, mem_def.1 hx]
      by_cases hseq : x.seq = msg.messageId
      · rw [ackIn_of_found ((hmem _).2 hseq)] at hmanager
        refine iff_of_true hseq (by_contra fun hmsg => hne ?_)
        rw [← hmanager]
        exact hnot fun h => hmsg ((hmem _).1 h)
      · rw [ackIn_of_not_found fun h => hseq ((hmem _).1 h)] at hmanager
        refine iff_of_false hseq fun hmsg => hne ?_
        rw [← hrec ((hmem _).2 hmsg), hmanager]
    · intro hm
      refine ⟨s', hstep, hs', ?_⟩
      rintro _ _ _ ⟨⟩
      rw [hmanager, ← found_iff ho hm]
      exact ⟨ackIn_of_found, ackIn_of_not_found⟩
  | messageOut p msg | cancelTimer p | expire p =>
    exact iff_of_true ⟨s', hstep, hs', by simp⟩ trivial

end Retransmission

open Retransmission

/-- In every run the timers match what is outstanding, and the acknowledgements remove the records of
their messages, exactly when the ids that they carry are the recorded numbers of these messages only. -/
theorem acknowledgements_right_iff (os : List RetransmissionOp) (hos : ∀ o ∈ os, Recordable o) :
    retransmission.RunsWith Right init os ↔ retransmission.RunsWith Matches init os := by
  have hrec : retransmission.RunsWith (fun _ o => Recordable o) init os :=
    Machine.runsWith_of_forall _ (fun o ho _ => hos o ho) _
  refine hrec.congr (I := TimersMatch) (fun s o hs ho => right_iff_matches hs ho) ?_ fun p => rfl
  intro s o s' _ hs ho _ hstep
  obtain ⟨s'', hstep', hs', -⟩ := exists_step hs ho
  obtain rfl : s'' = s' := (Prod.mk.inj (some.inj (hstep'.symm.trans hstep))).1
  exact hs'

/-- A topology message with the id 3, and the LSA 1 of node 7 that is regenerated with the id 5. -/
def topoMsg : LsMessage := ⟨.tpm, 3, 3, 1, .topo⟩

def regenerated : LsMessage := ⟨.lsa, 5, 1, 7, .null⟩

def topoAcked : List RetransmissionOp :=
  [.messageOut 2 topoMsg, .messageOut 3 regenerated, .ack 2 1 topoMsg]

theorem acknowledgements_right_topo : retransmission.RunsWith Right init topoAcked ↔
    retransmission.RunsWith Matches init topoAcked :=
  acknowledgements_right_iff _ (by simp [Recordable, topoAcked, topoMsg, regenerated])

/-- The acknowledgement of a regenerated LSA does not find its record. -/
theorem not_acknowledgements_right : ¬∀ os, (∀ o ∈ os, Recordable o) →
    retransmission.RunsWith Right init os := by
  intro h
  have hrun := h [.messageOut 2 regenerated, .ack 2 1 regenerated] (by simp [Recordable, regenerated])
  obtain ⟨s', hstep, -, hright⟩ := (hrun.2 _ () rfl).1
  obtain ⟨rfl, -⟩ := Prod.mk.inj (some.inj hstep)
  have hremoved := (hright 2 1 regenerated rfl).1 ⟨_, rfl, _, rfl, rfl⟩
  have hentries := congrArg (fun a => (a.find 2).map fun u => u.lsaMap.entries.length) hremoved
  revert hentries
  decide

end Ns2.LinkState
