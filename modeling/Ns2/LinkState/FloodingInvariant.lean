import Ns2.LinkState.DatabaseUpdate
import Ns2.LinkState.Quiescence

/-! The invariant of the flooding: what a node knows of an origin its live peers know too, or they are
about to be told. -/

namespace Ns2.LinkState

/-- A list of links that an origin has sent, of which `own` are the latest. -/
structure KnownBy (own l : List LsRecord) : Prop where
  ne : l ≠ []
  nbrs : l.map (fun r => r.neighborId) = own.map fun r => r.neighborId
  le : headSeq l ≤ headSeq own
  latest : headSeq l = headSeq own → l = own

/-- The messages that are not acknowledged meet `P`, and the ids of the topology messages are below `n`. -/
def Unacked (P : LsMessage → Prop) (n : ℕ) (a : LsRetransmissionManager) : Prop :=
  ∀ p u, a.find p = some u → u.tpmSeq < n ∧ ∀ o x, u.lsaMap.find o = some x → P x.msg

theorem Unacked.mono {P P' : LsMessage → Prop} {m n : ℕ} {am : LsRetransmissionManager}
    (h : Unacked P m am) (hP : ∀ msg, P msg → P' msg) (hmn : m ≤ n) : Unacked P' n am :=
  fun p u hu => ⟨(h p u hu).1.trans_le hmn, fun o x hx => hP _ ((h p u hu).2 o x hx)⟩

namespace LsNetwork

variable (net : LsNetwork)

/-- A message that the node `a` may have sent. -/
def Good (a : ℤ) (msg : LsMessage) : Prop :=
  match msg.type with
  | .lsa => msg.sequenceNumber = msg.messageId ∧ ∃ l, msg.content = .linkStates l ∧
    KnownBy (net.record msg.originNodeId msg.originNodeId) l ∧ headSeq l = msg.messageId ∧
      headSeq l ≤ headSeq (net.record a msg.originNodeId)
  | .tpm => msg.originNodeId = a ∧ msg.sequenceNumber = msg.messageId ∧ msg.messageId < net.currentLsaId
  | _ => True

/-- A message from `a` to `b` tells what `a` knows of `o`. -/
def Tells (a b o : ℤ) (msg : LsMessage) : Prop :=
  (msg.type = .lsa ∧ msg.originNodeId = o ∧ headSeq (net.record a o) ≤ msg.messageId) ∨
    (msg.type = .tpm ∧ ∀ s, (net.node b).tpmHistory.find a = some s → s < msg.messageId)

/-- The node `b` is about to be told by `a` what it knows of `o`. -/
def Pending (a b o : ℤ) : Prop :=
  ∃ msg, ((b, msg) ∈ (net.node a).messageBuffer ∨ (⟨a, b, msg⟩ : LsPacket) ∈ net.flight) ∧
    net.Tells a b o msg

/-- The invariant of the flooding. -/
structure Inv : Prop where
  me : ∀ a, (net.node a).myNodeId = a
  nodup : ∀ a, ((net.node a).linkStateList.map LsLinkState.neighborId).Nodup
  peers : ∀ a b, b ∈ (net.node a).peerIdList ↔
    b ∈ (net.node a).linkStateList.map LsLinkState.neighborId
  symm : ∀ a b, b ∈ (net.node a).peerIdList → a ∈ (net.node b).peerIdList
  irrefl : ∀ a, a ∉ (net.node a).peerIdList
  own : ∀ a, ∃ l, (net.node a).linkStateDatabase.find a = some l ∧
    l.map LsRecord.toLsLinkState = (net.node a).linkStateList
  ownSeq : ∀ a, headSeq (net.record a a) < net.currentLsaId
  silent : ∀ a, (net.node a).peerIdList = [] → headSeq (net.record a a) = 0
  records : ∀ a o l, o ≠ a → (net.node a).linkStateDatabase.find o = some l →
    KnownBy (net.record o o) l
  flight : ∀ p ∈ net.flight, net.Good p.src p.msg
  buffer : ∀ a, ∀ e ∈ (net.node a).messageBuffer, net.Good a e.2
  unacked : ∀ a, Unacked (net.Good a) net.currentLsaId (net.node a).ackManager
  lsaHistory : ∀ a o s, o ≠ a → (net.node a).lsaHistory.find o = some s → s ≤ headSeq (net.record a o)
  tpmHistory : ∀ a o s, (net.node a).tpmHistory.find o = some s → s < net.currentLsaId
  told : ∀ a b o, net.Up a b → o ≠ b →
    headSeq (net.record a o) ≤ headSeq (net.record b o) ∨ net.Pending a b o

/-- The network after the node `a` has acted, with the packets `flight` left of those before. -/
def after (flight : List LsPacket) (a : ℤ) (x : LsAct) : LsNetwork where
  node := Function.update net.node a x.routing
  currentLsaId := x.currentLsaId
  flight := flight ++ x.sent.map fun e => ⟨a, e.1, e.2⟩

end LsNetwork

namespace LsAct

/-- The record of an origin. -/
def record (x : LsAct) (o : ℤ) : List LsRecord := (x.routing.linkStateDatabase.find o).getD []

end LsAct

namespace LsNetwork

variable {net : LsNetwork} {flight : List LsPacket} {a b c o : ℤ} {x : LsAct} {msg : LsMessage}

@[simp] theorem node_after_self : (net.after flight a x).node a = x.routing := Function.update_self ..

theorem node_after_ne (h : b ≠ a) : (net.after flight a x).node b = net.node b := Function.update_of_ne h ..

@[simp] theorem record_after_self : (net.after flight a x).record a o = x.record o := by
  rw [record, node_after_self, LsAct.record]

theorem record_after_ne (h : b ≠ a) : (net.after flight a x).record b o = net.record b o := by
  rw [record, node_after_ne h, record]

/-- A node that acts forgets nothing that it has known or sent. -/
structure Grows (net : LsNetwork) (a : ℤ) (x : LsAct) : Prop where
  id : net.currentLsaId ≤ x.currentLsaId
  known : ∀ l, KnownBy (net.record a a) l → KnownBy (x.record a) l
  grows : ∀ o, headSeq (net.record a o) ≤ headSeq (x.record o)

/-- What the act of a node keeps of the invariant, and what it tells its peers. -/
structure Acts (net : LsNetwork) (flight : List LsPacket) (a : ℤ) (x : LsAct) : Prop
    extends Grows net a x where
  me : x.routing.myNodeId = a
  peers : x.routing.peerIdList = (net.node a).peerIdList
  nbrs : x.routing.linkStateList.map LsLinkState.neighborId =
    (net.node a).linkStateList.map LsLinkState.neighborId
  left : ∀ p ∈ flight, p ∈ net.flight
  own : ∃ l, x.routing.linkStateDatabase.find a = some l ∧
    l.map LsRecord.toLsLinkState = x.routing.linkStateList
  ownSeq : headSeq (x.record a) < x.currentLsaId
  silent : (net.node a).peerIdList = [] → headSeq (x.record a) = 0
  records : ∀ o l, o ≠ a → x.routing.linkStateDatabase.find o = some l → KnownBy (net.record o o) l
  sent : ∀ e ∈ x.sent, (net.after flight a x).Good a e.2
  buffer : ∀ e ∈ x.routing.messageBuffer, (net.after flight a x).Good a e.2
  unacked : Unacked ((net.after flight a x).Good a) x.currentLsaId x.routing.ackManager
  lsaHistory : ∀ o s, o ≠ a → x.routing.lsaHistory.find o = some s → s ≤ headSeq (x.record o)
  tpmHistory : ∀ o s, x.routing.tpmHistory.find o = some s → s < x.currentLsaId
  fromMe : ∀ b o, x.routing.isUp b = true → o ≠ b → b ≠ a →
    headSeq (x.record o) ≤ headSeq (net.record b o) ∨ (net.after flight a x).Pending a b o
  toMe : ∀ c o, net.Up c a → o ≠ a → c ≠ a →
    headSeq (net.record c o) ≤ headSeq (x.record o) ∨ (net.after flight a x).Pending c a o
  rest : ∀ p ∈ net.flight, p.dst ≠ a → p ∈ flight

theorem mem_of_isUp {r : LsRouting} (h : r.isUp b = true) :
    b ∈ r.linkStateList.map LsLinkState.neighborId := by
  rw [LsRouting.isUp] at h
  cases hf : r.linkStateList.find? fun l => l.neighborId = b with
  | none =>
    rw [hf] at h
    cases h
  | some l =>
    have := List.find?_some hf
    exact List.mem_map.2 ⟨l, List.mem_of_find?_eq_some hf, by simpa using this⟩

theorem Good.after (h : net.Good b msg) (hx : net.Grows a x) : (net.after flight a x).Good b msg := by
  have hrec : ∀ c o, headSeq (net.record c o) ≤ headSeq ((net.after flight a x).record c o) := fun c o => by
    by_cases hc : c = a
    · rw [hc, record_after_self]
      exact hx.grows o
    · rw [record_after_ne hc]
  unfold Good at h ⊢
  split at h
  · obtain ⟨hseq, l, hl, hk, hid, hle⟩ := h
    refine ⟨hseq, l, hl, ?_, hid, hle.trans (hrec b _)⟩
    by_cases ho : msg.originNodeId = a
    · rw [ho, record_after_self]
      exact hx.known l (ho ▸ hk)
    · rw [record_after_ne ho]
      exact hk
  · exact ⟨h.1, h.2.1, h.2.2.trans_le hx.id⟩
  · trivial

theorem Inv.after (h : net.Inv) (hx : net.Acts flight a x) : (net.after flight a x).Inv := by
  have hgood : ∀ b msg, net.Good b msg → (net.after flight a x).Good b msg := fun b msg hm =>
    hm.after hx.toGrows
  have hpeers : ∀ b, ((net.after flight a x).node b).peerIdList = (net.node b).peerIdList := fun b => by
    by_cases hb : b = a
    · rw [hb, node_after_self, hx.peers]
    · rw [node_after_ne hb]
  have hnbrs : ∀ b, ((net.after flight a x).node b).linkStateList.map LsLinkState.neighborId =
      (net.node b).linkStateList.map LsLinkState.neighborId := fun b => by
    by_cases hb : b = a
    · rw [hb, node_after_self, hx.nbrs]
    · rw [node_after_ne hb]
  refine ⟨fun b => ?_, fun b => ?_, fun b c => ?_, fun b c hc => ?_, fun b => ?_, fun b => ?_, fun b => ?_,
    fun b hb => ?_, fun b o l ho hl => ?_, fun p hp => ?_, fun b e he => ?_, fun b => ?_,
    fun b o s ho hs => ?_, fun b o s hs => ?_, fun b c o hup ho => ?_⟩
  · by_cases hb : b = a
    · rw [hb, node_after_self, hx.me]
    · rw [node_after_ne hb, h.me]
  · rw [hnbrs]
    exact h.nodup b
  · rw [hpeers, hnbrs]
    exact h.peers b c
  · rw [hpeers] at hc ⊢
    exact h.symm b c hc
  · rw [hpeers]
    exact h.irrefl b
  · by_cases hb : b = a
    · rw [hb, node_after_self]
      exact hx.own
    · rw [node_after_ne hb]
      exact h.own b
  · by_cases hb : b = a
    · rw [hb, record_after_self]
      exact hx.ownSeq
    · rw [record_after_ne hb]
      exact (h.ownSeq b).trans_le hx.id
  · rw [hpeers] at hb
    by_cases hba : b = a
    · rw [hba, record_after_self]
      exact hx.silent (hba ▸ hb)
    · rw [record_after_ne hba]
      exact h.silent b hb
  · have hk : KnownBy (net.record o o) l := by
      by_cases hb : b = a
      · rw [hb, node_after_self] at hl
        exact hx.records o l (hb ▸ ho) hl
      · rw [node_after_ne hb] at hl
        exact h.records b o l ho hl
    by_cases hoa : o = a
    · rw [hoa, record_after_self]
      exact hx.known l (hoa ▸ hk)
    · rw [record_after_ne hoa]
      exact hk
  · rcases List.mem_append.1 hp with hp | hp
    · exact hgood _ _ (h.flight p (hx.left p hp))
    · obtain ⟨e, he, rfl⟩ := List.mem_map.1 hp
      exact hx.sent e he
  · by_cases hb : b = a
    · rw [hb, node_after_self] at he
      exact hb ▸ hx.buffer e he
    · rw [node_after_ne hb] at he
      exact hgood _ _ (h.buffer b e he)
  · by_cases hb : b = a
    · rw [hb, node_after_self]
      exact hx.unacked
    · rw [node_after_ne hb]
      exact (h.unacked b : Unacked _ _ _).mono (hgood b) hx.id
  · by_cases hb : b = a
    · rw [hb, node_after_self] at hs
      rw [hb, record_after_self]
      exact hx.lsaHistory o s (hb ▸ ho) hs
    · rw [node_after_ne hb] at hs
      rw [record_after_ne hb]
      exact h.lsaHistory b o s ho hs
  · by_cases hb : b = a
    · rw [hb, node_after_self] at hs
      exact hx.tpmHistory o s hs
    · rw [node_after_ne hb] at hs
      exact (h.tpmHistory b o s hs).trans_le hx.id
  · have hbc : b ≠ c := fun hbc => by
      have hmem := mem_of_isUp hup
      rw [hnbrs, ← hbc] at hmem
      exact h.irrefl b ((h.peers b b).2 hmem)
    by_cases hb : b = a
    · have hca : c ≠ a := fun hca => hbc (hb.trans hca.symm)
      rw [Up, hb, node_after_self] at hup
      rw [hb, record_after_self, record_after_ne hca]
      exact hx.fromMe c o hup ho hca
    · rw [Up, node_after_ne hb] at hup
      by_cases hc : c = a
      · rw [hc, record_after_self, record_after_ne hb]
        exact hx.toMe b o (hc ▸ hup) (hc ▸ ho) hb
      · rw [record_after_ne hb, record_after_ne hc]
        refine (h.told b c o hup ho).imp_right fun ⟨msg, hmem, htells⟩ => ⟨msg, ?_, ?_⟩
        · rw [node_after_ne hb]
          exact hmem.imp_right fun hp => List.mem_append_left _ (hx.rest _ hp hc)
        · rw [Tells, record_after_ne hb, node_after_ne hc]
          exact htells

/-- An act that leaves the own record and the links as they are, and makes no record of others older. -/
theorem Inv.acts_learn (h : net.Inv) {db : LsDatabase} {lh th : LsMessageHistory}
    {am : LsRetransmissionManager} {buf : List (ℤ × LsMessage)}
    (hx : x.routing = { net.node a with
      linkStateDatabase := db
      lsaHistory := lh
      tpmHistory := th
      ackManager := am
      messageBuffer := buf })
    (hid : net.currentLsaId ≤ x.currentLsaId) (hown : db.find a = (net.node a).linkStateDatabase.find a)
    (hrecs : ∀ o l, o ≠ a → db.find o = some l → KnownBy (net.record o o) l)
    (hgrows : ∀ o, headSeq (net.record a o) ≤ headSeq (x.record o))
    (hlh : ∀ o s, o ≠ a → lh.find o = some s → s ≤ headSeq (x.record o))
    (hth : ∀ o s, th.find o = some s → s < x.currentLsaId) (hleft : ∀ p ∈ flight, p ∈ net.flight)
    (hrest : ∀ p ∈ net.flight, p ∈ flight ∨ p.dst = a ∧ ∀ o, o ≠ a → net.Tells p.src a o p.msg →
      headSeq (net.record p.src o) ≤ headSeq (x.record o))
    (hsent : ∀ e ∈ x.sent, (net.after flight a x).Good a e.2)
    (hbuf : ∀ e ∈ buf, (net.after flight a x).Good a e.2)
    (ham : Unacked ((net.after flight a x).Good a) x.currentLsaId am)
    (hpend : ∀ e ∈ (net.node a).messageBuffer, e ∈ buf ∨ e ∈ x.sent)
    (hnew : ∀ b o, net.Up a b → o ≠ b → headSeq (x.record o) ≤ headSeq (net.record a o) ∨
      headSeq (x.record o) ≤ headSeq (net.record b o) ∨
        ∃ msg, (b, msg) ∈ x.sent ∧ msg.type = .lsa ∧ msg.originNodeId = o ∧
          headSeq (x.record o) ≤ msg.messageId)
    (htopo : ∀ c, th.find c = (net.node a).tpmHistory.find c ∨
      ∀ o, o ≠ a → headSeq (net.record c o) ≤ headSeq (x.record o)) : net.Acts flight a x := by
  have hself : x.record a = net.record a a := by rw [LsAct.record, hx, record, hown]
  have hg : net.Grows a x := ⟨hid, fun l hl => hself ▸ hl, hgrows⟩
  have hsend : ∀ b msg, (b, msg) ∈ x.sent →
      (⟨a, b, msg⟩ : LsPacket) ∈ (net.after flight a x).flight := fun b msg hm =>
    List.mem_append_right _ (List.mem_map.2 ⟨(b, msg), hm, rfl⟩)
  refine ⟨hg, by rw [hx, h.me], by rw [hx], by rw [hx], hleft, ?_, ?_, fun hp => ?_, fun o l ho hl => ?_,
    hsent, fun e he => ?_, ?_, fun o s ho hs => ?_, fun o s hs => ?_, fun b o hup ho hb => ?_,
    fun c o hup ho hc => ?_, fun p hp hpa => ?_⟩
  · rw [hx, hown]
    exact h.own a
  · rw [hself]
    exact (h.ownSeq a).trans_le hid
  · rw [hself]
    exact h.silent a hp
  · rw [hx] at hl
    exact hrecs o l ho hl
  · rw [hx] at he
    exact hbuf e he
  · rw [hx]
    exact ham
  · rw [hx] at hs
    exact hlh o s ho hs
  · rw [hx] at hs
    exact hth o s hs
  · rw [hx] at hup
    rcases hnew b o hup ho with hsame | hknown | ⟨msg, hm, ht, horig, hle⟩
    · rcases h.told a b o hup ho with hle | ⟨msg, hmem, htells⟩
      · exact Or.inl (hsame.trans hle)
      · refine Or.inr ⟨msg, ?_, ?_⟩
        · rw [node_after_self, hx]
          rcases hmem with hmem | hmem
          · exact (hpend _ hmem).imp_right fun hs => hsend b msg hs
          · rcases hrest _ hmem with hf | ⟨hd, -⟩
            · exact Or.inr (List.mem_append_left _ hf)
            · exact absurd hd hb
        · rw [Tells, record_after_self, node_after_ne hb]
          exact htells.imp_left fun ⟨ht, horig, hle⟩ => ⟨ht, horig, hsame.trans hle⟩
    · exact Or.inl hknown
    · refine Or.inr ⟨msg, Or.inr (hsend b msg hm), Or.inl ⟨ht, horig, ?_⟩⟩
      rw [record_after_self]
      exact hle
  · rcases htopo c with hsame | hall
    · rcases h.told c a o hup ho with hle | ⟨msg, hmem, htells⟩
      · exact Or.inl (hle.trans (hgrows o))
      · have htells' : (net.after flight a x).Tells c a o msg := by
          rw [Tells, record_after_ne hc, node_after_self, hx, hsame]
          exact htells
        rcases hmem with hmem | hmem
        · refine Or.inr ⟨msg, Or.inl ?_, htells'⟩
          rw [node_after_ne hc]
          exact hmem
        · rcases hrest _ hmem with hf | ⟨-, hin⟩
          · exact Or.inr ⟨msg, Or.inr (List.mem_append_left _ hf), htells'⟩
          · exact Or.inl (hin o ho htells)
    · exact Or.inl (hall o ho)
  · exact (hrest p hp).resolve_right fun hin => hpa hin.1

theorem Inv.acts_quiet (h : net.Inv) {am : LsRetransmissionManager} {buf : List (ℤ × LsMessage)}
    (hx : x.routing = { net.node a with ackManager := am, messageBuffer := buf })
    (hid : x.currentLsaId = net.currentLsaId) (hleft : ∀ p ∈ flight, p ∈ net.flight)
    (hrest : ∀ p ∈ net.flight, p ∈ flight ∨ p.dst = a ∧ ∀ o, o ≠ a → net.Tells p.src a o p.msg →
      headSeq (net.record p.src o) ≤ headSeq (net.record a o))
    (hsent : ∀ e ∈ x.sent, net.Good a e.2) (hbuf : ∀ e ∈ buf, net.Good a e.2)
    (ham : Unacked (net.Good a) net.currentLsaId am)
    (hpend : ∀ e ∈ (net.node a).messageBuffer, e ∈ buf ∨ e ∈ x.sent) : net.Acts flight a x := by
  have hdb : x.routing.linkStateDatabase = (net.node a).linkStateDatabase := by rw [hx]
  have hrec : ∀ o, x.record o = net.record a o := fun o => by rw [LsAct.record, hdb, record]
  have hg : net.Grows a x := ⟨hid.ge, fun l hl => hrec a ▸ hl, fun o => (hrec o ▸ le_rfl)⟩
  refine h.acts_learn hx hid.ge rfl (h.records a) hg.grows (fun o s ho hs => ?_) (fun o s hs => ?_) hleft
    (fun p hp => ?_) (fun e he => (hsent e he).after hg) (fun e he => (hbuf e he).after hg)
    (hid.symm ▸ ham.mono (fun _ hm => hm.after hg) le_rfl) hpend (fun b o _ _ => Or.inl ?_) fun c => Or.inl rfl
  · rw [hrec]
    exact h.lsaHistory a o s ho hs
  · exact hid ▸ h.tpmHistory a o s hs
  · simp only [hrec]
    exact hrest p hp
  · rw [hrec]

end LsNetwork

end Ns2.LinkState
