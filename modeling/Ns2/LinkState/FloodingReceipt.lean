import Ns2.LinkState.FloodingSteps

/-! The receipt of a message keeps the invariant of the flooding. -/

namespace Ns2.LinkState

open List

theorem le_of_not_isNewer {old new : ℕ} (h : isNewer old new = false) : new ≤ old :=
  not_lt.1 (of_decide_eq_false (Bool.or_eq_false_iff.1 h).1)

theorem exists_of_not_isNewMessage {h : LsMessageHistory} {msg : LsMessage} (hn : ¬h.isNewMessage msg) :
    ∃ s, h.find msg.originNodeId = some s ∧ msg.sequenceNumber ≤ s := by
  rw [LsMessageHistory.isNewMessage] at hn
  cases hf : h.find msg.originNodeId with
  | none =>
    rw [hf] at hn
    exact absurd rfl hn
  | some s =>
    rw [hf] at hn
    exact ⟨s, rfl, le_of_not_isNewer (Bool.eq_false_iff.2 hn)⟩

theorem headSeq_le_of_not_outdated {mine : Option (List LsRecord)} {l : List LsRecord}
    (h : LsAct.outdated mine l = false) : headSeq l ≤ headSeq (mine.getD []) := by
  cases mine with
  | none => cases h
  | some mine => exact le_of_not_isNewer (Bool.or_eq_false_iff.1 h).2

namespace LsAct

variable {src a o : ℤ} {x y : LsAct} {e : ℤ × List LsRecord} {l : List (ℤ × List LsRecord)}

/-- No peer is left that the records of `l` that are accepted are to be passed on to. -/
def Silent (src : ℤ) (x : LsAct) (l : List (ℤ × List LsRecord)) : Prop :=
  ∀ e ∈ l, e.1 ≠ x.routing.myNodeId → outdated (x.routing.linkStateDatabase.find e.1) e.2 →
    (x.routing.peerIdList.filter fun p => p ≠ e.1 && p ≠ src && x.routing.isUp p) = []

/-- The record of a topology message is not accepted, or it replaces the record of the node. -/
theorem receiveRecord_eq_some (hx : Silent src x [e]) (hy : receiveRecord src x e = some y) :
    (y = x ∧ (e.1 ≠ x.routing.myNodeId → outdated (x.routing.linkStateDatabase.find e.1) e.2 = false)) ∨
      (e.1 ≠ x.routing.myNodeId ∧ e.2 ≠ [] ∧ outdated (x.routing.linkStateDatabase.find e.1) e.2 ∧
        y = { x with
          currentLsaId := x.currentLsaId + 2
          routing.linkStateDatabase := x.routing.linkStateDatabase.set e.1 e.2 }) := by
  rw [receiveRecord] at hy
  split_ifs at hy with hme hout
  · exact Or.inl ⟨(Option.some.inj hy).symm, fun h => absurd hme h⟩
  · rw [regenAndSend] at hy
    split_ifs at hy with hne
    obtain ⟨r, hr, rfl⟩ := Option.map_eq_some_iff.1 hy
    rw [newMessage] at hr
    split_ifs at hr
    obtain rfl := Option.some.inj hr
    refine Or.inr ⟨hme, hne, hout, ?_⟩
    have hquiet := hx e mem_cons_self hme hout
    dsimp only
    rw [toPeers_true]
    dsimp only [LsRouting.isUp] at hquiet ⊢
    rw [hquiet, map_nil, append_nil]
  · exact Or.inl ⟨(Option.some.inj hy).symm, fun _ => Bool.eq_false_iff.2 hout⟩

theorem foldlM_receiveRecord (hnodup : (l.map Prod.fst).Nodup) (hx : Silent src x l)
    (hy : l.foldlM (receiveRecord src) x = some y) :
    ∃ db, y = { x with currentLsaId := y.currentLsaId, routing.linkStateDatabase := db } ∧
      x.currentLsaId ≤ y.currentLsaId ∧ ∀ o,
        (db.find o = x.routing.linkStateDatabase.find o ∧ ∀ e ∈ l, e.1 = o → o ≠ x.routing.myNodeId →
          outdated (x.routing.linkStateDatabase.find o) e.2 = false) ∨
        ∃ e ∈ l, e.1 = o ∧ o ≠ x.routing.myNodeId ∧ e.2 ≠ [] ∧
          outdated (x.routing.linkStateDatabase.find o) e.2 ∧ db.find o = some e.2 := by
  induction l generalizing x with
  | nil =>
    obtain rfl := Option.some.inj hy
    exact ⟨_, rfl, le_rfl, fun o => Or.inl ⟨rfl, nofun⟩⟩
  | cons e l ih =>
    obtain ⟨hel, hnodup⟩ := nodup_cons.1 hnodup
    obtain ⟨z, hz, hzy⟩ := Option.bind_eq_some_iff.1 hy
    have hhead : Silent src x [e] := fun e' he' => hx e' (mem_singleton.1 he' ▸ mem_cons_self)
    have htail : Silent src x l := fun e' he' => hx e' (mem_cons_of_mem _ he')
    rcases receiveRecord_eq_some hhead hz with ⟨rfl, hold⟩ | ⟨hme, hne, hout, rfl⟩
    · obtain ⟨db, hdb, hid, hall⟩ := ih hnodup htail hzy
      refine ⟨db, hdb, hid, fun o => ?_⟩
      rcases hall o with ⟨hsame, hno⟩ | ⟨e', he', hrest⟩
      · refine Or.inl ⟨hsame, fun e' he' heo hom => ?_⟩
        rcases mem_cons.1 he' with rfl | he'
        · exact heo ▸ hold (heo ▸ hom)
        · exact hno e' he' heo hom
      · exact Or.inr ⟨e', mem_cons_of_mem _ he', hrest⟩
    · have hfind : ∀ o, o ≠ e.1 → (x.routing.linkStateDatabase.set e.1 e.2).find o =
          x.routing.linkStateDatabase.find o := fun o ho => OrdMap.find_set_of_ne ho ..
      have hother : ∀ e' ∈ l, e'.1 ≠ e.1 := fun e' he' heq => hel (heq ▸ mem_map_of_mem he')
      have hsilent : Silent src { x with
          currentLsaId := x.currentLsaId + 2
          routing.linkStateDatabase := x.routing.linkStateDatabase.set e.1 e.2 } l := by
        intro e' he' hme' hout'
        refine htail e' he' hme' ?_
        rw [← hfind _ (hother e' he')]
        exact hout'
      obtain ⟨db, hdb, hid, hall⟩ := ih hnodup hsilent hzy
      refine ⟨db, hdb, (Nat.le_add_right _ 2).trans hid, fun o => ?_⟩
      by_cases ho : o = e.1
      · refine Or.inr ⟨e, mem_cons_self, ho.symm, ho ▸ hme, hne, ho ▸ hout, ?_⟩
        rcases hall o with ⟨hsame, -⟩ | ⟨e', he', heo, -⟩
        · rw [hsame, ho, OrdMap.find_set_self]
        · exact absurd (heo.trans ho) (hother e' he')
      · rw [← hfind o ho]
        rcases hall o with ⟨hsame, hno⟩ | ⟨e', he', hrest⟩
        · refine Or.inl ⟨hsame, fun e' he' heo hom => ?_⟩
          rcases mem_cons.1 he' with rfl | he'
          · exact absurd heo.symm ho
          · exact hno e' he' heo hom
        · exact Or.inr ⟨e', mem_cons_of_mem _ he', hrest⟩

end LsAct

namespace LsNetwork

variable {net : LsNetwork} {flight : List LsPacket} {src a b o : ℤ} {x : LsAct} {msg : LsMessage}

theorem good_lsa (h : net.Good a msg) (ht : msg.type = .lsa) :
    msg.sequenceNumber = msg.messageId ∧ ∃ l, msg.content = .linkStates l ∧
      KnownBy (net.record msg.originNodeId msg.originNodeId) l ∧ headSeq l = msg.messageId ∧
        headSeq l ≤ headSeq (net.record a msg.originNodeId) := by
  unfold Good at h
  rw [ht] at h
  exact h

theorem good_tpm (h : net.Good a msg) (ht : msg.type = .tpm) :
    msg.originNodeId = a ∧ msg.sequenceNumber = msg.messageId ∧ msg.messageId < net.currentLsaId := by
  unfold Good at h
  rw [ht] at h
  exact h

theorem Inv.update_eq (h : net.Inv) {l : List LsRecord} (ho : o ≠ a) (hl : KnownBy (net.record o o) l) :
    (LsDatabase.update (net.node a).myNodeId o l (net.node a).linkStateDatabase).1 =
      (net.node a).linkStateDatabase.set o l := by
  rw [h.me]
  refine update_other ho ?_ fun old hold => hl.nbrs.trans (h.records a o old ho hold).nbrs.symm
  rw [hl.nbrs, h.nbrs_own]
  exact h.nodup o

theorem Inv.acts_heard (h : net.Inv) (hid : x.currentLsaId = net.currentLsaId)
    (hx : x.routing = net.node a) (hack : ∃ ack : LsMessage, x.sent = [(src, ack)] ∧ net.Good a ack)
    (hleft : ∀ p ∈ flight, p ∈ net.flight) (hrest : ∀ p ∈ net.flight, p ∈ flight ∨ p = ⟨src, a, msg⟩)
    (hknown : ∀ o, o ≠ a → net.Tells src a o msg → headSeq (net.record src o) ≤ headSeq (net.record a o)) :
    net.Acts flight a x := by
  obtain ⟨ack, hsent, hgood⟩ := hack
  refine h.acts_quiet hx hid hleft (fun p hp => (hrest p hp).imp_right ?_) (fun e he => ?_)
    (h.buffer a) (h.unacked a) fun e he => Or.inl he
  · rintro rfl
    exact ⟨rfl, hknown⟩
  · rw [hsent] at he
    obtain rfl := mem_singleton.1 he
    exact hgood

theorem Inv.acts_receiveLSA (h : net.Inv) (hleft : ∀ p ∈ flight, p ∈ net.flight)
    (hrest : ∀ p ∈ net.flight, p ∈ flight ∨ p = ⟨src, a, msg⟩) (hgood : net.Good src msg)
    (ht : msg.type = .lsa)
    (hok : msg.originNodeId ≠ a → (net.node a).lsaHistory.isNewMessage msg →
      headSeq (net.record a msg.originNodeId) ≤ msg.sequenceNumber) :
    net.Acts flight a (LsAct.receiveLSA ⟨net.node a, net.currentLsaId, []⟩ src msg) := by
  obtain ⟨hseq, l, hcontent, hl, hid, hle⟩ := good_lsa hgood ht
  have hack : ∀ n origin, net.Good a ⟨.lsaAck, 0, n, origin, .null⟩ := fun _ _ => trivial
  rw [LsAct.receiveLSA]
  split_ifs with hskip <;> dsimp only [LsAct.sendMessage] at hskip ⊢
  · refine h.acts_heard rfl rfl ⟨_, rfl, hack _ _⟩ hleft hrest fun o ho htells => ?_
    rcases htells with ⟨-, rfl, hto⟩ | ⟨ht', -⟩
    · rw [h.me] at hskip
      obtain ⟨s, hs, hms⟩ := exists_of_not_isNewMessage (hskip.resolve_left ho)
      exact (hto.trans (hseq ▸ hms)).trans (h.lsaHistory a _ s ho hs)
    · rw [ht] at ht'
      cases ht'
  · rw [h.me, not_or, not_not] at hskip
    obtain ⟨hoa, hnew⟩ := hskip
    have hold := hok hoa hnew
    rw [hcontent, LsAct.toPeers_false]
    dsimp only
    rw [h.update_eq hoa hl]
    set fwd := ((net.node a).peerIdList.filter fun p =>
      p ≠ msg.originNodeId && p ≠ src && (net.node a).isUp p).map fun p => (p, msg) with hfwd
    set y : LsAct := ⟨{ net.node a with
      linkStateDatabase := (net.node a).linkStateDatabase.set msg.originNodeId l
      lsaHistory := (net.node a).lsaHistory.save msg
      ackManager := fwd.foldl (fun am e => am.messageOut e.1 e.2) (net.node a).ackManager },
      net.currentLsaId, [(src, ⟨.lsaAck, 0, msg.messageId, msg.originNodeId, .null⟩)] ++ fwd⟩ with hy
    change net.Acts flight a y
    have hself : y.record msg.originNodeId = l := by
      rw [LsAct.record, OrdMap.find_set_self]
      rfl
    have hother : ∀ o, o ≠ msg.originNodeId → y.record o = net.record a o := fun o ho => by
      rw [LsAct.record, OrdMap.find_set_of_ne ho, record]
    have hgrows : ∀ o, headSeq (net.record a o) ≤ headSeq (y.record o) := fun o => by
      by_cases ho : o = msg.originNodeId
      · rw [ho, hself, hid, ← hseq]
        exact hold
      · rw [hother o ho]
    have hg : net.Grows a y := by
      refine ⟨le_rfl, fun k hk => ?_, hgrows⟩
      rw [hother a (Ne.symm hoa)]
      exact hk
    have hmsg : (net.after flight a y).Good a msg := by
      unfold Good
      rw [ht]
      refine ⟨hseq, l, hcontent, ?_, hid, ?_⟩
      · rw [record_after_ne hoa]
        exact hl
      · rw [record_after_self, hself]
    have hmem : ∀ e ∈ fwd, e.2 = msg := fun e he => by
      obtain ⟨p, -, rfl⟩ := mem_map.1 he
      rfl
    refine h.acts_learn rfl le_rfl (OrdMap.find_set_of_ne (Ne.symm hoa) ..) (fun o k ho hk => ?_) hgrows
      (fun o s ho hs => ?_) (h.tpmHistory a) hleft (fun p hp => (hrest p hp).imp_right ?_) (fun e he => ?_)
      (fun e he => (h.buffer a e he).after hg) ?_ (fun e he => Or.inl he) (fun b o hup hob => ?_)
      fun c => Or.inl rfl
    · rw [OrdMap.find_set] at hk
      split_ifs at hk with heq
      · obtain rfl := Option.some.inj hk
        exact heq ▸ hl
      · exact h.records a o k ho hk
    · rw [LsMessageHistory.save, OrdMap.find_set] at hs
      split_ifs at hs with heq
      · obtain rfl := Option.some.inj hs
        rw [heq, hself, hid, hseq]
      · exact (h.lsaHistory a o s ho hs).trans (hgrows o)
    · rintro rfl
      refine ⟨rfl, fun o ho htells => ?_⟩
      rcases htells with ⟨-, rfl, hto⟩ | ⟨ht', -⟩
      · rw [hself, hid]
        exact hto
      · rw [ht] at ht'
        cases ht'
    · rcases mem_append.1 he with he | he
      · obtain rfl := mem_singleton.1 he
        trivial
      · exact hmem e he ▸ hmsg
    · refine unacked_foldl_messageOut ((h.unacked a : Unacked _ _ _).mono (fun _ hm => hm.after hg) le_rfl)
        h.pos fun e he => ?_
      rw [hmem e he, ht]
      refine ⟨fun htpm => ?_, hmsg⟩
      cases htpm
    · by_cases ho : o = msg.originNodeId
      · refine Or.inr ?_
        rw [ho, hself]
        by_cases hb : b = src
        · exact Or.inl (hb ▸ hle)
        · refine Or.inr ⟨msg, mem_append_right _ (mem_map.2 ⟨b, mem_filter.2 ⟨?_, ?_⟩, rfl⟩),
            ht, rfl, hid.le⟩
          · exact (h.peers a b).2 (mem_of_isUp hup)
          · simp only [Bool.and_eq_true, decide_eq_true_eq]
            exact ⟨⟨fun hbo => hob (ho.trans hbo.symm), hb⟩, hup⟩
      · exact Or.inl (hother o ho ▸ le_rfl)

theorem Inv.knownBy_of_find (h : net.Inv) {l : List LsRecord} (hne : l ≠ [])
    (hl : (net.node src).linkStateDatabase.find o = some l) : KnownBy (net.record o o) l := by
  rcases eq_or_ne o src with rfl | ho
  · have hrec : net.record o o = l := by
      rw [record, hl]
      rfl
    exact ⟨hne, by rw [hrec], by rw [hrec], fun _ => hrec.symm⟩
  · exact h.records src o l ho hl

theorem Inv.acts_receiveTopo (h : net.Inv) {y : LsAct} (hleft : ∀ p ∈ flight, p ∈ net.flight)
    (hrest : ∀ p ∈ net.flight, p ∈ flight ∨ p = ⟨src, a, msg⟩) (hgood : net.Good src msg)
    (ht : msg.type = .tpm)
    (hok : (net.node a).tpmHistory.isNewMessage msg →
      ∀ e ∈ (net.node msg.originNodeId).linkStateDatabase.entries, e.1 ≠ a →
        LsAct.outdated ((net.node a).linkStateDatabase.find e.1) e.2 →
          headSeq (net.record a e.1) ≤ headSeq e.2 ∧ net.remaining a src e.1 = [])
    (hy : LsAct.receiveTopo ⟨net.node a, net.currentLsaId, []⟩ src msg
      (net.node msg.originNodeId).linkStateDatabase = some y) : net.Acts flight a y := by
  obtain ⟨rfl, hseq, hid⟩ := good_tpm hgood ht
  rw [LsAct.receiveTopo] at hy
  split_ifs at hy with hskip
  · have hok := hok hskip
    set src := msg.originNodeId with hsrc
    set topo := (net.node src).linkStateDatabase with htopo
    have hsilent : LsAct.Silent src ⟨{ net.node a with tpmHistory := (net.node a).tpmHistory.save msg },
        net.currentLsaId, [] ++ [(src, ⟨.tpmAck, 0, msg.sequenceNumber, src, .null⟩)]⟩ topo.entries :=
      fun e he hme hout => (hok e he (h.me a ▸ hme) hout).2
    obtain ⟨db, hy', hle, hall⟩ := LsAct.foldlM_receiveRecord topo.nodup_keys hsilent hy
    rw [h.me] at hall
    have hrec : ∀ o, y.record o = (db.find o).getD [] := fun o => by rw [hy', LsAct.record]
    have hself : db.find a = (net.node a).linkStateDatabase.find a := by
      rcases hall a with ⟨hsame, -⟩ | ⟨e, -, -, hme, -⟩
      · exact hsame
      · exact absurd rfl hme
    have hgrows : ∀ o, headSeq (net.record a o) ≤ headSeq (y.record o) := fun o => by
      rw [hrec]
      rcases hall o with ⟨hsame, -⟩ | ⟨e, he, rfl, hme, -, hout, hnew⟩
      · rw [hsame, record]
      · rw [hnew]
        exact (hok e he hme hout).1
    have hknown : ∀ o, o ≠ a → headSeq (net.record src o) ≤ headSeq (y.record o) := fun o ho => by
      rw [hrec, record]
      cases hf : topo.find o with
      | none => exact Nat.zero_le _
      | some l =>
        rcases hall o with ⟨hsame, hno⟩ | ⟨e, he, rfl, -, -, -, hnew⟩
        · rw [hsame]
          exact headSeq_le_of_not_outdated (hno (o, l) (OrdMap.mem_entries.2 hf) rfl ho)
        · rw [hnew, ← OrdMap.mem_entries.1 he, hf]
    have hg : net.Grows a y := by
      refine ⟨hle, fun l hl => ?_, hgrows⟩
      rw [hrec, hself]
      exact hl
    refine h.acts_learn (by rw [hy']) hle hself (fun o l ho hl => ?_) hgrows
      (fun o s ho hs => (h.lsaHistory a o s ho hs).trans (hgrows o)) (fun o s hs => ?_) hleft
      (fun p hp => (hrest p hp).imp_right ?_) (fun e he => ?_) (fun e he => (h.buffer a e he).after hg)
      ((h.unacked a : Unacked _ _ _).mono (fun _ hm => hm.after hg) hle) (fun e he => Or.inl he)
      (fun b o hup hob => ?_) fun c => ?_
    · rcases hall o with ⟨hsame, -⟩ | ⟨e, he, rfl, -, hne, -, hnew⟩
      · exact h.records a o l ho (hsame ▸ hl)
      · obtain rfl := Option.some.inj (hnew.symm.trans hl)
        exact h.knownBy_of_find hne (OrdMap.mem_entries.1 he)
    · rw [LsMessageHistory.save, OrdMap.find_set] at hs
      split_ifs at hs
      · obtain rfl := Option.some.inj hs
        exact hseq ▸ hid.trans_le hle
      · exact (h.tpmHistory a o s hs).trans_le hle
    · rintro rfl
      exact ⟨rfl, fun o ho _ => hknown o ho⟩
    · rw [hy'] at he
      obtain rfl := mem_singleton.1 he
      trivial
    · rcases hall o with ⟨hsame, -⟩ | ⟨e, he, rfl, hme, -, hout, hnew⟩
      · refine Or.inl ?_
        rw [hrec, hsame, record]
      · have hquiet := (hok e he hme hout).2
        have hb : b = src := by
          by_contra hbs
          have hmem : b ∈ net.remaining a src e.1 := by
            refine mem_filter.2 ⟨(h.peers a b).2 (mem_of_isUp hup), ?_⟩
            simp only [Bool.and_eq_true, decide_eq_true_eq]
            exact ⟨⟨hob.symm, hbs⟩, hup⟩
          rw [hquiet] at hmem
          cases hmem
        refine Or.inr (Or.inl ?_)
        rw [hrec, hnew, hb, record, OrdMap.mem_entries.1 he]
    · by_cases hc : c = src
      · exact Or.inr fun o ho => hc ▸ hknown o ho
      · exact Or.inl (OrdMap.find_set_of_ne hc ..)
  · obtain ⟨s, hs, hms⟩ := exists_of_not_isNewMessage hskip
    obtain rfl := Option.some.inj hy
    refine h.acts_heard rfl rfl ⟨_, rfl, trivial⟩ hleft hrest fun o ho htells => ?_
    rcases htells with ⟨ht', -⟩ | ⟨-, hlt⟩
    · rw [ht] at ht'
      cases ht'
    · exact absurd (hlt s hs) (not_lt.2 (hseq ▸ hms))

end LsNetwork

end Ns2.LinkState
