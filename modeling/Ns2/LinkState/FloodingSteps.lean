import Ns2.LinkState.FloodingInvariant

/-! Every event keeps the invariant of the flooding. -/

namespace Ns2.LinkState

open List

section Unacked

variable {P : LsMessage → Prop} {n : ℕ} {am : LsRetransmissionManager} {p : ℤ} {msg : LsMessage}

section

variable (h : Unacked P n am)
include h

theorem unacked_getD (hn : 0 < n) : ((am.find p).getD .empty).tpmSeq < n ∧
    ∀ o x, ((am.find p).getD .empty).lsaMap.find o = some x → P x.msg := by
  cases hp : am.find p with
  | none => exact ⟨hn, nofun⟩
  | some u => exact h p u hp

theorem unacked_set {u : LsUnackPeer} (hu : u.tpmSeq < n)
    (hl : ∀ o x, u.lsaMap.find o = some x → P x.msg) : Unacked P n (am.set p u) := by
  intro q v hv
  rw [OrdMap.find_set] at hv
  split_ifs at hv
  · obtain rfl := Option.some.inj hv
    exact ⟨hu, hl⟩
  · exact h q v hv

theorem unacked_messageOut (hn : 0 < n)
    (ht : msg.type = .tpm → msg.sequenceNumber < n) (hm : P msg) : Unacked P n (am.messageOut p msg) := by
  obtain ⟨htpm, hlsa⟩ := unacked_getD (p := p) h hn
  rw [LsRetransmissionManager.messageOut]
  split
  · rename_i htype
    exact unacked_set h (ht htype) hlsa
  · refine unacked_set h htpm fun o x hx => ?_
    rw [OrdMap.find_set] at hx
    split_ifs at hx
    · obtain rfl := Option.some.inj hx
      exact hm
    · exact hlsa o x hx
  · exact unacked_set h htpm hlsa

theorem unacked_ackIn (hn : 0 < n) : Unacked P n (am.ackIn p msg) := by
  rw [LsRetransmissionManager.ackIn]
  split
  · exact h
  · rename_i u hu
    obtain ⟨htpm, hlsa⟩ := h p u hu
    split
    · split_ifs
      · exact unacked_set h hn hlsa
      · exact h
    · split_ifs
      · refine unacked_set h htpm fun o x hx => ?_
        rw [OrdMap.find_erase] at hx
        split_ifs at hx
        exact hlsa o x hx
      · exact h
    · exact h

theorem unacked_cancelTimer (hn : 0 < n) : Unacked P n (am.cancelTimer p) := by
  rw [LsRetransmissionManager.cancelTimer]
  split
  · exact h
  · exact unacked_set h hn nofun

theorem unacked_foldl_messageOut {l : List (ℤ × LsMessage)} (hn : 0 < n)
    (hl : ∀ e ∈ l, (e.2.type = .tpm → e.2.sequenceNumber < n) ∧ P e.2) :
    Unacked P n (l.foldl (fun am e => am.messageOut e.1 e.2) am) := by
  induction l generalizing am with
  | nil => exact h
  | cons e l ih =>
    obtain ⟨ht, hm⟩ := hl e mem_cons_self
    exact ih (unacked_messageOut h hn ht hm) fun e he => hl e (mem_cons_of_mem _ he)

end

end Unacked

namespace LsAct

theorem foldl_send (l : List (ℤ × LsMessage)) (x : LsAct) :
    l.foldl (fun x e => (x.messageOut e.1 e.2).sendMessage e.1 e.2) x =
      { x with
        routing.ackManager := l.foldl (fun am e => am.messageOut e.1 e.2) x.routing.ackManager
        sent := x.sent ++ l } := by
  induction l generalizing x with
  | nil => rw [append_nil]; rfl
  | cons e l ih =>
    rw [foldl_cons, ih, foldl_cons]
    simp only [messageOut, sendMessage, append_assoc, singleton_append]

theorem foldl_bufferedSend (ps : List ℤ) (msg : LsMessage) (x : LsAct) :
    ps.foldl (fun x p => x.bufferedSend p msg) x =
      { x with routing.messageBuffer := x.routing.messageBuffer ++ ps.map fun p => (p, msg) } := by
  induction ps generalizing x with
  | nil => rw [map_nil, append_nil]; rfl
  | cons p ps ih =>
    rw [foldl_cons, ih]
    simp only [bufferedSend, append_assoc, map_cons, singleton_append]

theorem toPeers_true (x : LsAct) (ok : ℤ → Bool) (msg : LsMessage) : x.toPeers ok true msg =
    { x with
      routing.messageBuffer := x.routing.messageBuffer ++
        (x.routing.peerIdList.filter ok).map fun p => (p, msg) } :=
  foldl_bufferedSend _ msg x

theorem toPeers_false (x : LsAct) (ok : ℤ → Bool) (msg : LsMessage) : x.toPeers ok false msg =
    { x with
      routing.ackManager := ((x.routing.peerIdList.filter ok).map fun p => (p, msg)).foldl
        (fun am e => am.messageOut e.1 e.2) x.routing.ackManager
      sent := x.sent ++ (x.routing.peerIdList.filter ok).map fun p => (p, msg) } := by
  rw [← foldl_send, foldl_map]
  rfl

theorem foldl_sendMessage (l : List (ℤ × LsIdSeq)) (p : ℤ) (x : LsAct) :
    l.foldl (fun x e => x.sendMessage p e.2.msg) x =
      { x with sent := x.sent ++ l.map fun e => (p, e.2.msg) } := by
  induction l generalizing x with
  | nil => rw [map_nil, append_nil]; rfl
  | cons e l ih =>
    rw [foldl_cons, ih]
    simp only [sendMessage, append_assoc, map_cons, singleton_append]

end LsAct

namespace LsNetwork

variable {net : LsNetwork} {flight : List LsPacket} {a b c o : ℤ} {x : LsAct} {msg : LsMessage}

theorem Inv.pos (h : net.Inv) : 0 < net.currentLsaId := (Nat.zero_le _).trans_lt (h.ownSeq 0)

theorem Good.tpm_lt (h : net.Good a msg) (ht : msg.type = .tpm) : msg.sequenceNumber < net.currentLsaId := by
  unfold Good at h
  rw [ht] at h
  exact h.2.1 ▸ h.2.2

theorem Inv.acts_sendBufferedMessages (h : net.Inv) :
    net.Acts net.flight a (LsAct.sendBufferedMessages ⟨net.node a, net.currentLsaId, []⟩) := by
  rw [LsAct.sendBufferedMessages, LsAct.foldl_send]
  refine h.acts_quiet rfl rfl (fun p hp => hp) (fun p hp => Or.inl hp) (fun e he => h.buffer a e he) nofun
    ?_ fun e he => Or.inr he
  exact unacked_foldl_messageOut (h.unacked a) h.pos fun e he =>
    ⟨(h.buffer a e he).tpm_lt, h.buffer a e he⟩

theorem Inv.acts_resendMessages (h : net.Inv) (p : ℤ) :
    net.Acts net.flight a (LsAct.resendMessages ⟨net.node a, net.currentLsaId, []⟩ p) := by
  rw [LsAct.resendMessages]
  cases hp : (net.node a).ackManager.find p with
  | none =>
    exact h.acts_quiet rfl rfl (fun p hp => hp) (fun p hp => Or.inl hp) nofun (h.buffer a) (h.unacked a)
      fun e he => Or.inl he
  | some u =>
    obtain ⟨htpm, hlsa⟩ := h.unacked a p u hp
    have hl : ∀ e ∈ u.lsaMap.entries.map (fun e => (p, e.2.msg)), net.Good a e.2 := fun e he => by
      obtain ⟨y, hy, rfl⟩ := mem_map.1 he
      exact hlsa y.1 y.2 (OrdMap.mem_entries.1 hy)
    dsimp only
    split_ifs
    · rw [LsAct.foldl_sendMessage]
      refine h.acts_quiet rfl rfl (fun p hp => hp) (fun p hp => Or.inl hp) (fun e he => ?_) (h.buffer a)
        (h.unacked a) fun e he => Or.inl he
      rcases mem_append.1 he with he | he
      · obtain rfl := mem_singleton.1 he
        exact ⟨h.me a, rfl, htpm⟩
      · exact hl e he
    · rw [LsAct.foldl_sendMessage]
      exact h.acts_quiet rfl rfl (fun p hp => hp) (fun p hp => Or.inl hp) hl (h.buffer a)
        (h.unacked a) fun e he => Or.inl he

theorem Inv.acts_ackIn (h : net.Inv) (hleft : ∀ p ∈ flight, p ∈ net.flight)
    (hrest : ∀ p ∈ net.flight, p ∈ flight ∨ p.dst = a ∧ ∀ o, o ≠ a → net.Tells p.src a o p.msg →
      headSeq (net.record p.src o) ≤ headSeq (net.record a o)) (p : ℤ) (msg : LsMessage) : net.Acts flight a
      ⟨{ net.node a with ackManager := (net.node a).ackManager.ackIn p msg }, net.currentLsaId, []⟩ :=
  h.acts_quiet rfl rfl hleft hrest nofun (h.buffer a) (unacked_ackIn (h.unacked a) h.pos)
    fun _ he => Or.inl he

/-- A message that `a` makes while its own record becomes `own`; the ids are from `lo` on. -/
def Made (own : List LsRecord) (a : ℤ) (lo hi : ℕ) (msg : LsMessage) : Prop :=
  (msg = ⟨.lsa, headSeq own, headSeq own, a, .linkStates own⟩ ∧ own ≠ [] ∧ lo ≤ headSeq own) ∨
    (msg.type = .tpm ∧ msg.originNodeId = a ∧ msg.sequenceNumber = msg.messageId ∧ lo ≤ msg.messageId ∧
      msg.messageId < hi)

/-- What the own record of a node may become. -/
inductive OwnChange (net : LsNetwork) (a : ℤ) (hi : ℕ) (own : List LsRecord) : Prop
  | same : own = net.record a a → OwnChange net a hi own
  | alone : (net.node a).peerIdList = [] → headSeq own = headSeq (net.record a a) → OwnChange net a hi own
  | renewed : (net.node a).peerIdList ≠ [] → net.currentLsaId ≤ headSeq own → headSeq own < hi →
    OwnChange net a hi own

theorem OwnChange.mono {own : List LsRecord} {m n : ℕ} (h : OwnChange net a m own) (hmn : m ≤ n) :
    OwnChange net a n own := by
  cases h with
  | same hs => exact .same hs
  | alone hp hs => exact .alone hp hs
  | renewed hp hlo hhi => exact .renewed hp hlo (hhi.trans_le hmn)

/-- The messages that a live peer is about to get: what has changed of the own record, or the topology if
the link has come up. -/
def Informed (net : LsNetwork) (a : ℤ) (own : List LsRecord) (sending : List (ℤ × LsMessage)) (b : ℤ) :
    Prop :=
  (∃ msg, (b, msg) ∈ sending ∧ msg.type = .tpm ∧ net.currentLsaId ≤ msg.messageId) ∨
    (net.Up a b ∧ (own = net.record a a ∨
      ∃ msg, (b, msg) ∈ sending ∧ msg.type = .lsa ∧ msg.originNodeId = a ∧ headSeq own ≤ msg.messageId))

theorem Inv.nbrs_own (h : net.Inv) (a : ℤ) : (net.record a a).map (fun r => r.neighborId) =
    (net.node a).linkStateList.map LsLinkState.neighborId := by
  obtain ⟨own, hown, hlinks⟩ := h.own a
  rw [record, hown, ← hlinks, map_map]
  rfl

theorem Inv.eq_nil_of_alone (h : net.Inv) {l : List LsRecord}
    (hnbrs : l.map (fun r => r.neighborId) = (net.record a a).map fun r => r.neighborId)
    (hp : (net.node a).peerIdList = []) : l = [] := by
  rw [h.nbrs_own] at hnbrs
  by_contra hl
  obtain ⟨r, hr⟩ := exists_mem_of_ne_nil _ hl
  have hmem := (h.peers a r.neighborId).2 (hnbrs ▸ mem_map_of_mem hr)
  rw [hp] at hmem
  cases hmem

theorem Inv.knownBy_own (h : net.Inv) {own l : List LsRecord} {hi : ℕ}
    (hc : OwnChange net a hi own)
    (hnbrs : own.map (fun r => r.neighborId) = (net.record a a).map fun r => r.neighborId)
    (hl : KnownBy (net.record a a) l) : KnownBy own l := by
  have hlt : headSeq l < net.currentLsaId := hl.le.trans_lt (h.ownSeq a)
  cases hc with
  | same hs => exact hs ▸ hl
  | alone hp _ => exact absurd (h.eq_nil_of_alone hl.nbrs hp) hl.ne
  | renewed _ hid _ => exact ⟨hl.ne, hl.nbrs.trans hnbrs.symm, by omega, fun heq => by omega⟩

theorem Inv.headSeq_le_own (h : net.Inv) {own : List LsRecord} {hi : ℕ} (hc : OwnChange net a hi own) :
    headSeq (net.record a a) ≤ headSeq own := by
  cases hc with
  | same hs => exact hs ▸ le_rfl
  | alone _ hs => exact hs.ge
  | renewed _ hid _ => exact (h.ownSeq a).le.trans hid

theorem Inv.headSeq_own_lt (h : net.Inv) {own : List LsRecord} {hi : ℕ} (hc : OwnChange net a hi own)
    (hid : net.currentLsaId ≤ hi) : headSeq own < hi := by
  cases hc with
  | same hs => exact hs ▸ (h.ownSeq a).trans_le hid
  | alone _ hs => exact hs ▸ (h.ownSeq a).trans_le hid
  | renewed _ _ hlt => exact hlt

theorem Inv.headSeq_own_of_alone (h : net.Inv) {own : List LsRecord} {hi : ℕ}
    (hc : OwnChange net a hi own) (hp : (net.node a).peerIdList = []) : headSeq own = 0 := by
  cases hc with
  | same hs => exact hs ▸ h.silent a hp
  | alone _ hs => exact hs ▸ h.silent a hp
  | renewed hne _ _ => exact absurd hp hne

theorem Made.good {lo : ℕ} (h : Made (x.record a) a lo x.currentLsaId msg) :
    (net.after flight a x).Good a msg := by
  rcases h with ⟨rfl, hne, hlo⟩ | ⟨ht, ho, hs, -, hhi⟩
  · refine ⟨rfl, x.record a, rfl, ?_, rfl, ?_⟩
    · rw [record_after_self]
      exact ⟨hne, rfl, le_rfl, fun _ => rfl⟩
    · rw [record_after_self]
  · unfold Good
    rw [ht]
    exact ⟨ho, hs, hhi⟩

theorem Inv.told_of_informed (h : net.Inv) (hrec : ∀ o, o ≠ a → x.record o = net.record a o)
    (hpend : ∀ e ∈ (net.node a).messageBuffer, e ∈ x.routing.messageBuffer) (ho : o ≠ b) (hb : b ≠ a)
    (hinf : Informed net a (x.record a) (x.routing.messageBuffer ++ x.sent) b) :
    headSeq (x.record o) ≤ headSeq (net.record b o) ∨ (net.after net.flight a x).Pending a b o := by
  have hmem : ∀ msg, (b, msg) ∈ x.routing.messageBuffer ++ x.sent →
      (b, msg) ∈ ((net.after net.flight a x).node a).messageBuffer ∨
        (⟨a, b, msg⟩ : LsPacket) ∈ (net.after net.flight a x).flight := fun msg hm => by
    rw [node_after_self]
    refine (mem_append.1 hm).imp_right fun hs => ?_
    exact mem_append_right _ (mem_map.2 ⟨(b, msg), hs, rfl⟩)
  rcases hinf with ⟨msg, hm, ht, hlo⟩ | ⟨hup, hnew⟩
  · refine Or.inr ⟨msg, hmem msg hm, Or.inr ⟨ht, fun s hs => ?_⟩⟩
    rw [node_after_ne hb] at hs
    exact (h.tpmHistory b a s hs).trans_le hlo
  · by_cases hoa : o = a ∧ x.record a ≠ net.record a a
    · obtain ⟨rfl, hne⟩ := hoa
      obtain ⟨msg, hm, ht, horig, hle⟩ := hnew.resolve_left hne
      refine Or.inr ⟨msg, hmem msg hm, Or.inl ⟨ht, horig, ?_⟩⟩
      rw [record_after_self]
      exact hle
    · have hro : x.record o = net.record a o := by
        by_cases ho' : o = a
        · rw [ho']
          exact not_not.1 fun hne => hoa ⟨ho', hne⟩
        · exact hrec o ho'
      rw [hro]
      refine (h.told a b o hup ho).imp_right fun hpending => ?_
      obtain ⟨msg, hm, htells⟩ := hpending
      refine ⟨msg, ?_, ?_⟩
      · rcases hm with hm | hm
        · exact hmem msg (mem_append_left _ (hpend _ hm))
        · exact Or.inr (mem_append_left _ hm)
      · rw [Tells, record_after_self, hro, node_after_ne hb]
        exact htells

theorem Inv.acts_originate (h : net.Inv) {am : LsRetransmissionManager} {buf : List (ℤ × LsMessage)}
    {lsl : List LsLinkState} {own : List LsRecord}
    (hx : x.routing = { net.node a with
      linkStateList := lsl
      linkStateDatabase := (net.node a).linkStateDatabase.set a own
      ackManager := am
      messageBuffer := buf })
    (hlsl : lsl.map LsLinkState.neighborId = (net.node a).linkStateList.map LsLinkState.neighborId)
    (hown : own.map LsRecord.toLsLinkState = lsl) (hid : net.currentLsaId ≤ x.currentLsaId)
    (hc : OwnChange net a x.currentLsaId own)
    (hsent : ∀ e ∈ x.sent, net.Good a e.2 ∨ Made own a net.currentLsaId x.currentLsaId e.2)
    (hbuf : ∀ e ∈ buf, net.Good a e.2 ∨ Made own a net.currentLsaId x.currentLsaId e.2)
    (ham : Unacked (fun msg => net.Good a msg ∨ Made own a net.currentLsaId x.currentLsaId msg)
      x.currentLsaId am)
    (hpend : ∀ e ∈ (net.node a).messageBuffer, e ∈ buf)
    (hinf : ∀ b, x.routing.isUp b = true → b ≠ a → Informed net a own (buf ++ x.sent) b) :
    net.Acts net.flight a x := by
  have hself : x.record a = own := by
    rw [LsAct.record, hx, OrdMap.find_set_self]
    rfl
  have hrec : ∀ o, o ≠ a → x.record o = net.record a o := fun o ho => by
    rw [LsAct.record, hx, OrdMap.find_set_of_ne ho, record]
  have hnbrs : own.map (fun r => r.neighborId) = (net.record a a).map fun r => r.neighborId := by
    rw [h.nbrs_own, ← hlsl, ← hown, map_map]
    rfl
  have hg : net.Grows a x := by
    refine ⟨hid, fun l hl => hself ▸ h.knownBy_own hc hnbrs hl, fun o => ?_⟩
    by_cases ho : o = a
    · rw [ho, hself]
      exact h.headSeq_le_own hc
    · rw [hrec o ho]
  have hgood : ∀ msg, net.Good a msg ∨ Made own a net.currentLsaId x.currentLsaId msg →
      (net.after net.flight a x).Good a msg := by
    rintro msg (hm | hm)
    · exact hm.after hg
    · exact (hself ▸ hm).good
  refine ⟨hg, by rw [hx, h.me], by rw [hx], by rw [hx]; exact hlsl, fun p hp => hp, ?_, ?_, fun hp => ?_,
    fun o l ho hl => ?_, fun e he => hgood _ (hsent e he), fun e he => ?_, ?_, fun o s ho hs => ?_,
    fun o s hs => ?_, fun b o hup ho hb => ?_, fun c o hup ho hc => ?_, fun p hp _ => hp⟩
  · rw [hx]
    exact ⟨own, OrdMap.find_set_self .., hown⟩
  · rw [hself]
    exact h.headSeq_own_lt hc hid
  · rw [hself]
    exact h.headSeq_own_of_alone hc hp
  · rw [hx, OrdMap.find_set_of_ne ho] at hl
    exact h.records a o l ho hl
  · rw [hx] at he
    exact hgood _ (hbuf e he)
  · rw [hx]
    exact ham.mono hgood le_rfl
  · rw [hx] at hs
    rw [hrec o ho]
    exact h.lsaHistory a o s ho hs
  · rw [hx] at hs
    exact (h.tpmHistory a o s hs).trans_le hid
  · have hbuffer : x.routing.messageBuffer = buf := by rw [hx]
    refine h.told_of_informed hrec (hbuffer ▸ hpend) ho hb ?_
    rw [hself, hbuffer]
    exact hinf b hup hb
  · rw [hrec o ho]
    refine (h.told c a o hup ho).imp_right fun hpending => ?_
    obtain ⟨msg, hm, htells⟩ := hpending
    refine ⟨msg, ?_, ?_⟩
    · rw [node_after_ne hc]
      exact hm.imp_right fun hp => mem_append_left _ hp
    · rw [Tells, record_after_ne hc, node_after_self, hx]
      exact htells

/-- The own links with the sequence number of a new message. -/
def renew (id : ℕ) (own : List LsRecord) : List LsRecord :=
  own.map fun l => { l with sequenceNumber := id }

theorem headSeq_renew {own : List LsRecord} (id : ℕ) (h : own ≠ []) : headSeq (renew id own) = id := by
  obtain ⟨l, own, rfl⟩ := exists_cons_of_ne_nil h
  rfl

theorem links_renew (id : ℕ) (own : List LsRecord) :
    (renew id own).map LsRecord.toLsLinkState = own.map LsRecord.toLsLinkState := by
  rw [renew, map_map]
  rfl

theorem sendLinkStates_eq_some {x y : LsAct} {own : List LsRecord} {buffer : Bool}
    (hme : x.routing.myNodeId = a) (hfind : x.routing.linkStateDatabase.find a = some own)
    (h : x.sendLinkStates buffer = some y) :
    (y = x ∧ (x.routing.peerIdList = [] ∨ own = [])) ∨
      x.routing.peerIdList ≠ [] ∧ own ≠ [] ∧
        y = LsAct.toPeers { x with
          currentLsaId := x.currentLsaId + 2
          routing.linkStateDatabase := x.routing.linkStateDatabase.set a (renew x.currentLsaId own) }
          x.routing.isUp buffer ⟨.lsa, x.currentLsaId, x.currentLsaId, a,
            .linkStates (renew x.currentLsaId own)⟩ := by
  rw [LsAct.sendLinkStates, hme] at h
  by_cases hp : x.routing.peerIdList = []
  · rw [if_pos hp] at h
    exact Or.inl ⟨(Option.some.inj h).symm, Or.inl hp⟩
  · rw [if_neg hp, hfind] at h
    cases own with
    | nil => exact Or.inl ⟨(Option.some.inj h).symm, Or.inr rfl⟩
    | cons l own =>
      refine Or.inr ⟨hp, cons_ne_nil _ _, ?_⟩
      obtain ⟨r, hr, rfl⟩ := Option.map_eq_some_iff.1 h
      rw [LsAct.newMessage] at hr
      split_ifs at hr
      obtain rfl := Option.some.inj hr
      rfl

theorem Inv.ne_nil_of_peer (h : net.Inv) {own : List LsRecord}
    (hown : own.map (fun l => l.neighborId) = (net.node a).linkStateList.map LsLinkState.neighborId)
    (hp : (net.node a).peerIdList ≠ []) : own ≠ [] := by
  obtain ⟨b, hb⟩ := exists_mem_of_ne_nil _ hp
  rintro rfl
  rw [h.peers, ← hown] at hb
  cases hb

theorem Inv.acts_sendUpdates (h : net.Inv) {y : LsAct}
    (hy : LsAct.sendLinkStates ⟨net.node a, net.currentLsaId, []⟩ false = some y) :
    net.Acts net.flight a y := by
  obtain ⟨own, hown, hlinks⟩ := h.own a
  rcases sendLinkStates_eq_some (h.me a) hown hy with ⟨rfl, -⟩ | ⟨hp, hne, rfl⟩
  · exact h.acts_quiet rfl rfl (fun p hp => hp) (fun p hp => Or.inl hp) nofun (h.buffer a) (h.unacked a)
      fun e he => Or.inl he
  · have hseq := headSeq_renew net.currentLsaId hne
    set own' := renew net.currentLsaId own with hown'
    set msg : LsMessage := ⟨.lsa, net.currentLsaId, net.currentLsaId, a, .linkStates own'⟩ with hmsg
    have hmade : Made own' a net.currentLsaId (net.currentLsaId + 2) msg := by
      refine Or.inl ⟨by rw [hseq, hmsg], ?_, hseq.ge⟩
      rw [hown', renew, Ne, map_eq_nil_iff]
      exact hne
    rw [LsAct.toPeers_false]
    have hlinks' : own'.map LsRecord.toLsLinkState = (net.node a).linkStateList :=
      (links_renew _ own).trans hlinks
    refine h.acts_originate rfl rfl hlinks' (Nat.le_add_right _ _) (.renewed hp hseq.ge ?_) (fun e he => ?_) (fun e he => Or.inl (h.buffer a e he))
      ?_ (fun e he => he) fun b hup hb => Or.inr ⟨hup, Or.inr ⟨msg, ?_, rfl, rfl, hseq.le⟩⟩
    · rw [hseq]
      exact Nat.lt_add_of_pos_right (by decide)
    · obtain ⟨p, -, rfl⟩ := mem_map.1 he
      exact Or.inr hmade
    · refine unacked_foldl_messageOut ((h.unacked a : Unacked _ _ _).mono (fun _ hm => Or.inl hm)
        (Nat.le_add_right _ _)) (Nat.add_pos_right _ (by decide)) fun e he => ?_
      obtain ⟨p, -, rfl⟩ := mem_map.1 he
      exact ⟨nofun, Or.inr hmade⟩
    · refine mem_append_right _ (mem_map.2 ⟨b, mem_filter.2 ⟨?_, hup⟩, rfl⟩)
      exact (h.peers a b).2 (mem_of_isUp hup)

theorem sendTopo_eq_some {x y : LsAct} {p : ℤ} (h : x.sendTopo p = some y) :
    y = LsAct.bufferedSend { x with currentLsaId := x.currentLsaId + 2 } p
      ⟨.tpm, x.currentLsaId, x.currentLsaId, x.routing.myNodeId, .topo⟩ := by
  obtain ⟨r, hr, rfl⟩ := Option.map_eq_some_iff.1 h
  rw [LsAct.newMessage] at hr
  split_ifs at hr
  obtain rfl := Option.some.inj hr
  rfl

theorem peerChanges_eq_some {lsl : List LsLinkState} {old : List LsRecord} {x y : LsAct}
    (hnbr : lsl.map LsLinkState.neighborId = old.map fun l => l.neighborId)
    (h : LsAct.peerChanges lsl old x = some y) :
    ∃ am tpms, y.routing = { x.routing with
          ackManager := am
          messageBuffer := x.routing.messageBuffer ++ tpms } ∧
      y.sent = x.sent ∧ x.currentLsaId ≤ y.currentLsaId ∧
      (∀ P n, 0 < n → Unacked P n x.routing.ackManager → Unacked P n am) ∧
      (∀ e ∈ tpms, e.2.type = .tpm ∧ e.2.originNodeId = x.routing.myNodeId ∧
        e.2.sequenceNumber = e.2.messageId ∧ x.currentLsaId ≤ e.2.messageId ∧
          e.2.messageId < y.currentLsaId) ∧
      Forall₂ (fun new old => new.neighborId = old.neighborId ∧ (new.status = .up →
        old.status = .up ∨ ∃ msg, (new.neighborId, msg) ∈ tpms)) lsl old := by
  induction lsl generalizing old x with
  | nil =>
    have hold : old = [] := by simpa using hnbr.symm
    obtain rfl := Option.some.inj h
    subst hold
    exact ⟨_, [], by rw [append_nil], rfl, le_rfl, fun _ _ _ h => h, nofun, Forall₂.nil⟩
  | cons new lsl ih =>
    cases old with
    | nil => simp at hnbr
    | cons o old =>
      obtain ⟨heq, hnbr⟩ := List.cons.inj hnbr
      have heq' : new.neighborId = o.neighborId := heq
      rw [LsAct.peerChanges, if_neg (not_not.2 heq')] at h
      set x₁ := if new.status = .down then
        { x with routing.ackManager := x.routing.ackManager.cancelTimer new.neighborId } else x with hx₁
      have hx₁' : ∃ am, x₁ = { x with routing.ackManager := am } ∧
          ∀ P n, 0 < n → Unacked P n x.routing.ackManager → Unacked P n am := by
        rw [hx₁]
        split_ifs
        · exact ⟨_, rfl, fun P n hn hu => unacked_cancelTimer hu hn⟩
        · exact ⟨_, rfl, fun P n hn hu => hu⟩
      obtain ⟨am₁, hx₁am, ham₁⟩ := hx₁'
      split_ifs at h with hskip
      · obtain ⟨am, tpms, hr, hs, hid, ham, htpms, hall⟩ := ih hnbr h
        rw [hx₁am] at hr hs hid ham htpms
        refine ⟨am, tpms, hr, hs, hid, fun P n hn hu => ham P n hn (ham₁ P n hn hu), htpms, ?_⟩
        refine Forall₂.cons ⟨heq', fun hup => Or.inl ?_⟩ hall
        rcases hskip with hdown | hold
        · rw [hup] at hdown
          cases hdown
        · exact hold
      · obtain ⟨x₂, hx₂, h⟩ := Option.bind_eq_some_iff.1 h
        obtain rfl := sendTopo_eq_some hx₂
        obtain ⟨am, tpms, hr, hs, hid, ham, htpms, hall⟩ := ih hnbr h
        rw [hx₁am] at hr hs hid ham htpms
        dsimp only [LsAct.bufferedSend] at hr hs hid ham htpms
        set msg : LsMessage := ⟨.tpm, x.currentLsaId, x.currentLsaId, x.routing.myNodeId, .topo⟩ with hmsg
        refine ⟨am, (new.neighborId, msg) :: tpms, ?_, hs, (Nat.le_add_right _ 2).trans hid,
          fun P n hn hu => ham P n hn (ham₁ P n hn hu), fun e he => ?_, ?_⟩
        · rw [hr, append_assoc]
          rfl
        · rcases mem_cons.1 he with rfl | he
          · refine ⟨rfl, rfl, rfl, le_rfl, ?_⟩
            change x.currentLsaId < y.currentLsaId
            omega
          · obtain ⟨h1, h2, h3, h4, h5⟩ := htpms e he
            exact ⟨h1, h2, h3, by omega, h5⟩
        · refine Forall₂.cons ⟨heq', fun _ => Or.inr ⟨msg, mem_cons_self⟩⟩ ?_
          refine Forall₂.imp (fun _ _ hr => ?_) hall
          exact ⟨hr.1, fun hup => (hr.2 hup).imp_right fun ⟨m, hm⟩ => ⟨m, mem_cons_of_mem _ hm⟩⟩

/-- The node `a` with the link states `lsl` and the own record `own`, of which it has put `msgs` into its
buffer. -/
structure Advertised (net : LsNetwork) (a : ℤ) (lsl : List LsLinkState) (y : LsAct) (own : List LsRecord)
    (msgs : List (ℤ × LsMessage)) : Prop where
  routing : y.routing = { net.node a with
    linkStateList := lsl
    linkStateDatabase := (net.node a).linkStateDatabase.set a own
    messageBuffer := (net.node a).messageBuffer ++ msgs }
  sent : y.sent = []
  id : net.currentLsaId ≤ y.currentLsaId
  change : OwnChange net a y.currentLsaId own
  made : ∀ e ∈ msgs, Made own a net.currentLsaId y.currentLsaId e.2
  told : ∀ b, y.routing.isUp b = true → b ∈ (net.node a).peerIdList → own = net.record a a ∨
    ∃ msg, (b, msg) ∈ msgs ∧ msg.type = .lsa ∧ msg.originNodeId = a ∧ headSeq own ≤ msg.messageId

/-- `sendLinkStates` in `linkStateChanged`, where `merged` is the own record after the update. -/
theorem Inv.advertised (h : net.Inv) {x y : LsAct} {merged : List LsRecord} {changed : Bool}
    {lsl : List LsLinkState}
    (hx : x = ⟨{ net.node a with
      linkStateList := lsl
      linkStateDatabase := (net.node a).linkStateDatabase.set a merged }, net.currentLsaId, []⟩)
    (hnbr : merged.map (fun l => l.neighborId) = (net.node a).linkStateList.map LsLinkState.neighborId)
    (hseq : headSeq merged = headSeq (net.record a a)) (hsame : changed = false → merged = net.record a a)
    (hy : (if changed then x.sendLinkStates true else some x) = some y) :
    ∃ own msgs, own.map LsRecord.toLsLinkState = merged.map LsRecord.toLsLinkState ∧
      Advertised net a lsl y own msgs := by
  have hstay : (merged = net.record a a ∨ (net.node a).peerIdList = []) → y = x →
      Advertised net a lsl y merged [] := by
    rintro hcase rfl
    refine ⟨by rw [hx, append_nil], by rw [hx], by rw [hx], ?_, nofun, fun b _ hb => ?_⟩
    · rcases hcase with hs | hp
      · exact .same hs
      · exact .alone hp hseq
    · rcases hcase with hs | hp
      · exact Or.inl hs
      · rw [hp] at hb
        cases hb
  split_ifs at hy with hch
  · have hfind : x.routing.linkStateDatabase.find a = some merged := by
      rw [hx]
      exact OrdMap.find_set_self ..
    have hpeers : x.routing.peerIdList = (net.node a).peerIdList := by rw [hx]
    rcases sendLinkStates_eq_some (by rw [hx, h.me]) hfind hy with ⟨hyx, hcase⟩ | ⟨hp, hne, hy'⟩
    · refine ⟨merged, [], rfl, hstay (Or.inr ?_) hyx⟩
      rcases hcase with hp | hm
      · exact hpeers ▸ hp
      · by_contra hp
        exact h.ne_nil_of_peer hnbr hp hm
    · rw [LsAct.toPeers_true] at hy'
      subst hx
      set own := renew net.currentLsaId merged with hown
      have hseq' : headSeq own = net.currentLsaId := headSeq_renew _ hne
      set msg : LsMessage := ⟨.lsa, net.currentLsaId, net.currentLsaId, a, .linkStates own⟩ with hmsg
      refine ⟨own, ((net.node a).peerIdList.filter y.routing.isUp).map fun p => (p, msg),
        links_renew _ merged, ?_, ?_, ?_, .renewed hp hseq'.ge ?_, fun e he => ?_,
        fun b hup hb => Or.inr ⟨msg, ?_, rfl, rfl, hseq'.le⟩⟩
      · rw [hy', OrdMap.set_set]
        rfl
      · rw [hy']
      · rw [hy']
        exact Nat.le_add_right _ _
      · rw [hy', hseq']
        exact Nat.lt_add_of_pos_right (by decide)
      · obtain ⟨p, -, rfl⟩ := mem_map.1 he
        refine Or.inl ⟨by rw [hseq', hmsg], ?_, hseq'.ge⟩
        rw [hown, renew, Ne, map_eq_nil_iff]
        exact hne
      · exact mem_map.2 ⟨b, mem_filter.2 ⟨hb, hup⟩, rfl⟩
  · exact ⟨merged, [], rfl,
      hstay (Or.inl (hsame (Bool.eq_false_iff.2 hch))) (Option.some.inj hy).symm⟩

theorem exists_up {R : LsLinkState → LsRecord → Prop} {lsl : List LsLinkState} {old : List LsRecord}
    (h : Forall₂ R lsl old) (hR : ∀ new old, R new old → new.neighborId = old.neighborId)
    {l : LsLinkState} (hl : lsl.find? (fun l => l.neighborId = b) = some l) :
    ∃ o, (old.map LsRecord.toLsLinkState).find? (fun l => l.neighborId = b) =
      some (LsRecord.toLsLinkState o) ∧ R l o := by
  induction h with
  | nil => cases hl
  | @cons new o lsl old hno _ ih =>
    have heq := hR new o hno
    rw [find?_cons] at hl
    rw [map_cons, find?_cons]
    by_cases hb : new.neighborId = b
    · rw [decide_eq_true hb] at hl
      obtain rfl := Option.some.inj hl
      exact ⟨o, by rw [decide_eq_true (heq ▸ hb)], hno⟩
    · rw [decide_eq_false hb] at hl
      rw [decide_eq_false (heq ▸ hb)]
      exact ih hl

theorem intfChanged_eq_some {r : LsRouting} {n : ℕ} {lsl : List LsLinkState} {old : List LsRecord}
    {db : LsDatabase} {changed : Bool} {z : LsAct} (hme : r.myNodeId = a)
    (hold : r.linkStateDatabase.find a = some old)
    (hupd : LsDatabase.update a a (newRecords lsl) r.linkStateDatabase = (db, changed))
    (hz : LsAct.intfChanged ⟨r, n, []⟩ lsl = some z) :
    ∃ y, (if changed then LsAct.sendLinkStates
        ⟨{ r with linkStateList := lsl, linkStateDatabase := db }, n, []⟩ true
      else some ⟨{ r with linkStateList := lsl, linkStateDatabase := db }, n, []⟩) = some y ∧
        LsAct.peerChanges lsl old y = some z := by
  subst hme
  rw [LsAct.intfChanged, LsAct.linkStateChanged] at hz
  rw [hold] at hz
  rw [hupd] at hz
  exact Option.bind_eq_some_iff.1 hz

theorem Inv.acts_intfChanged (h : net.Inv) {lsl : List LsLinkState} {z : LsAct}
    (hlsl : lsl.map LsLinkState.neighborId = (net.node a).linkStateList.map LsLinkState.neighborId)
    (hz : LsAct.intfChanged ⟨net.node a, net.currentLsaId, []⟩ lsl = some z) :
    net.Acts net.flight a z := by
  obtain ⟨old, hold, hlinks⟩ := h.own a
  have hrec : net.record a a = old := by rw [record, hold]; rfl
  have hnew : (newRecords lsl).map (fun l => l.neighborId) = lsl.map LsLinkState.neighborId := by
    rw [newRecords, map_map]
    rfl
  have holdnbr : old.map (fun l => l.neighborId) =
      (net.node a).linkStateList.map LsLinkState.neighborId := by
    rw [← hlinks, map_map]
    rfl
  obtain ⟨changed, merged, hupd, hmerged, hseq, hsame⟩ := update_own hold (by rw [hnew, hlsl, holdnbr]) (by rw [holdnbr]; exact h.nodup a)
  have hmlsl : merged.map LsRecord.toLsLinkState = lsl := by
    rw [hmerged, newRecords, map_map]
    exact map_id _
  have hmnbr : merged.map (fun l => l.neighborId) =
      (net.node a).linkStateList.map LsLinkState.neighborId := by
    rw [← hlsl, ← hmlsl, map_map]
    rfl
  obtain ⟨y, hy, hz⟩ := intfChanged_eq_some (h.me a) hold hupd hz
  obtain ⟨own, msgs, hown, hadv⟩ := h.advertised rfl hmnbr (hrec ▸ hseq) (fun hc => hrec ▸ hsame hc) hy
  obtain ⟨am, tpms, hr, hs, hid, ham, htpms, hall⟩ :=
    peerChanges_eq_some (by rw [hlsl, holdnbr]) hz
  have hyme : y.routing.myNodeId = a := by rw [hadv.routing]; exact h.me a
  rw [hadv.routing] at hr ham
  have hlo : net.currentLsaId ≤ z.currentLsaId := hadv.id.trans hid
  have hmsgs : ∀ e ∈ msgs, Made own a net.currentLsaId z.currentLsaId e.2 := fun e he =>
    (hadv.made e he).imp_right fun hnew => by
      obtain ⟨h1, h2, h3, h4, h5⟩ := hnew
      exact ⟨h1, h2, h3, h4, h5.trans_le hid⟩
  have htpm : ∀ e ∈ tpms, Made own a net.currentLsaId z.currentLsaId e.2 := fun e he => by
    obtain ⟨h1, h2, h3, h4, h5⟩ := htpms e he
    exact Or.inr ⟨h1, h2.trans hyme, h3, hadv.id.trans h4, h5⟩
  refine h.acts_originate hr hlsl (hown.trans hmlsl) hlo (hadv.change.mono hid) ?_ (fun e he => ?_)
    ?_ (fun e he => mem_append_left _ (mem_append_left _ he)) fun b hup hb => ?_
  · rw [hs, hadv.sent]
    exact fun _ he => absurd he not_mem_nil
  · rcases mem_append.1 he with he | he
    · rcases mem_append.1 he with he | he
      · exact Or.inl (h.buffer a e he)
      · exact Or.inr (hmsgs e he)
    · exact Or.inr (htpm e he)
  · exact ham _ _ (h.pos.trans_le hlo) ((h.unacked a : Unacked _ _ _).mono (fun _ hm => Or.inl hm) hlo)
  · rw [hs, hadv.sent, append_nil]
    rw [hr, LsRouting.isUp] at hup
    cases hf : lsl.find? fun l => l.neighborId = b with
    | none =>
      rw [hf] at hup
      cases hup
    | some l =>
      rw [hf] at hup
      have hlup : l.status = .up := of_decide_eq_true hup
      have hlb : l.neighborId = b := by simpa using find?_some hf
      obtain ⟨r, hr', hnbr, hnew⟩ := exists_up hall (fun _ _ hno => hno.1) hf
      rcases hnew hlup with hwas | ⟨msg, hmsg⟩
      · have hupb : net.Up a b := by
          rw [Up, LsRouting.isUp, ← hlinks, hr']
          exact decide_eq_true hwas
        have hbp : b ∈ (net.node a).peerIdList := (h.peers a b).2 (mem_of_isUp hupb)
        have hyup : y.routing.isUp b = true := by
          rw [LsRouting.isUp, hadv.routing]
          rw [hf]
          exact decide_eq_true hlup
        refine Or.inr ⟨hupb, (hadv.told b hyup hbp).imp_right fun htold => ?_⟩
        obtain ⟨msg, hm, hrest⟩ := htold
        exact ⟨msg, mem_append_left _ (mem_append_right _ hm), hrest⟩
      · obtain ⟨ht, -, -, hid', -⟩ := htpms _ hmsg
        exact Or.inl ⟨msg, mem_append_right _ (hlb ▸ hmsg), ht, hadv.id.trans hid'⟩

end LsNetwork

end Ns2.LinkState
