import Ns2.LinkState.FloodingReceipt

/-! In every quiescent state of a benign run the databases of connected nodes agree. -/

namespace Ns2.LinkState

open List

section Start

variable (T : Topology)

theorem headSeq_newRecords (lsl : List LsLinkState) : headSeq (newRecords lsl) = 0 := by
  cases lsl with
  | nil => rfl
  | cons l lsl => rfl

theorem Topology.node_eq (a : ℤ) : ∃ ps lsl, T.network.node a = .init a ps lsl ∧
    (a ∈ T.ids ∧ ps = T.peers a ∧ lsl = T.links a ∨ a ∉ T.ids ∧ ps = [] ∧ lsl = []) := by
  by_cases ha : a ∈ T.ids
  · exact ⟨_, _, if_pos ha, Or.inl ⟨ha, rfl, rfl⟩⟩
  · exact ⟨_, _, if_neg ha, Or.inr ⟨ha, rfl, rfl⟩⟩

theorem Topology.headSeq_record (a o : ℤ) : headSeq (T.network.record a o) = 0 := by
  obtain ⟨ps, lsl, hn, -⟩ := T.node_eq a
  rw [LsNetwork.record, hn]
  dsimp only [LsRouting.init]
  by_cases ho : o = a
  · rw [ho, OrdMap.find_set_self]
    exact headSeq_newRecords lsl
  · rw [OrdMap.find_set_of_ne ho]
    rfl

theorem Topology.inv_network : T.network.Inv := by
  refine ⟨fun a => ?_, fun a => ?_, fun a b => ?_, fun a b hb => ?_, fun a ha => ?_, fun a => ?_, fun a => ?_,
    fun a _ => T.headSeq_record a a, fun a o l ho hl => ?_,
    fun _ hp => absurd hp not_mem_nil, fun a e he => ?_, fun a => ?_,
    fun a o s _ hs => ?_, fun a o s hs => ?_, fun a b o _ _ => ?_⟩
  · obtain ⟨ps, lsl, hn, -⟩ := T.node_eq a
    rw [hn]
    rfl
  · obtain ⟨ps, lsl, hn, ⟨ha, rfl, rfl⟩ | ⟨-, rfl, rfl⟩⟩ := T.node_eq a
    · rw [hn]
      exact T.nodup a ha
    · rw [hn]
      exact nodup_nil
  · obtain ⟨ps, lsl, hn, ⟨ha, rfl, rfl⟩ | ⟨-, rfl, rfl⟩⟩ := T.node_eq a
    · rw [hn]
      exact T.mem_peers a ha b
    · rw [hn]
      exact Iff.rfl
  · obtain ⟨ps, lsl, hn, ⟨ha, rfl, rfl⟩ | ⟨-, rfl, rfl⟩⟩ := T.node_eq a
    · rw [hn] at hb
      obtain ⟨hbi, hba⟩ := T.symm a ha b hb
      have hnb : T.network.node b = .init b (T.peers b) (T.links b) := if_pos hbi
      rw [hnb]
      exact hba
    · rw [hn] at hb
      cases hb
  · obtain ⟨ps, lsl, hn, ⟨hai, rfl, rfl⟩ | ⟨-, rfl, rfl⟩⟩ := T.node_eq a
    · rw [hn] at ha
      exact T.irrefl a hai ha
    · rw [hn] at ha
      cases ha
  · obtain ⟨ps, lsl, hn, -⟩ := T.node_eq a
    rw [hn]
    refine ⟨newRecords lsl, OrdMap.find_set_self .., ?_⟩
    rw [newRecords, map_map]
    exact map_id _
  · rw [T.headSeq_record]
    exact Nat.one_pos
  · obtain ⟨ps, lsl, hn, -⟩ := T.node_eq a
    rw [hn, LsRouting.init, OrdMap.find_set_of_ne ho] at hl
    cases hl
  · obtain ⟨ps, lsl, hn, -⟩ := T.node_eq a
    rw [hn] at he
    cases he
  · obtain ⟨ps, lsl, hn, -⟩ := T.node_eq a
    rw [hn]
    intro _ _ hu
    cases hu
  · obtain ⟨ps, lsl, hn, -⟩ := T.node_eq a
    rw [hn] at hs
    cases hs
  · obtain ⟨ps, lsl, hn, -⟩ := T.node_eq a
    rw [hn] at hs
    cases hs
  · rw [T.headSeq_record]
    exact Or.inl (Nat.zero_le _)

end Start

namespace LsNetwork

variable {net net' : LsNetwork} {ids : List ℤ} {a b : ℤ}
variable {flight : List LsPacket} {k : ℕ}

/-- The invariant, and the nodes other than those of `ids` have no peers. -/
structure InvOn (ids : List ℤ) (net : LsNetwork) : Prop where
  inv : net.Inv
  alone : ∀ a, a ∉ ids → (net.node a).peerIdList = []

section

variable (h : net.InvOn ids)
include h

theorem InvOn.drop {p : LsPacket} (hleft : ∀ q ∈ flight, q ∈ net.flight)
    (hrest : ∀ q ∈ net.flight, q ∈ flight ∨ q = p) (hup : ¬net.Up p.src p.dst) :
    InvOn ids { net with flight := flight } := by
  obtain ⟨hinv, halone⟩ := h
  refine ⟨⟨hinv.me, hinv.nodup, hinv.peers, hinv.symm, hinv.irrefl, hinv.own, hinv.ownSeq, hinv.silent,
    hinv.records, fun q hq => hinv.flight q (hleft q hq), hinv.buffer, hinv.unacked, hinv.lsaHistory,
    hinv.tpmHistory, fun a b o hab ho => ?_⟩, halone⟩
  refine (hinv.told a b o hab ho).imp_right fun ⟨msg, hmem, htells⟩ => ⟨msg, hmem.imp_right ?_, htells⟩
  intro hq
  refine (hrest _ hq).resolve_right ?_
  rintro rfl
  exact hup hab

theorem InvOn.act {f : LsAct → Option LsAct}
    (hf : ∀ x, f ⟨net.node a, net.currentLsaId, []⟩ = some x → net.Acts flight a x)
    (hn : LsNetwork.act { net with flight := flight } a f = some net') : net'.InvOn ids := by
  obtain ⟨x, hx, rfl⟩ := Option.map_eq_some_iff.1 hn
  have hacts := hf x hx
  refine ⟨h.inv.after hacts, fun b hb => ?_⟩
  change ((net.after flight a x).node b).peerIdList = []
  by_cases hba : b = a
  · rw [hba, node_after_self, hacts.peers]
    exact h.alone a (hba ▸ hb)
  · rw [node_after_ne hba]
    exact h.alone b hb

theorem InvOn.deliver (hok : net.Benign (.deliver k))
    (hn : net.handle (.deliver k) = some net') : net'.InvOn ids := by
  rw [handle] at hn
  cases hk : net.flight[k]? with
  | none =>
    rw [hk] at hn
    obtain rfl := Option.some.inj hn
    exact h
  | some p =>
    rw [hk] at hn
    dsimp only at hn
    have hleft : ∀ q ∈ net.flight.eraseIdx k, q ∈ net.flight := fun q hq => mem_of_mem_eraseIdx hq
    have hrest : ∀ q ∈ net.flight, q ∈ net.flight.eraseIdx k ∨ q = p := fun q hq => by
      obtain ⟨i, hi⟩ := mem_iff_getElem?.1 hq
      by_cases hik : i = k
      · exact Or.inr (Option.some.inj (hi.symm.trans (hik ▸ hk)))
      · exact Or.inl (mem_eraseIdx_iff_getElem?.2 ⟨i, hik, hi⟩)
    have hgood := h.inv.flight p (mem_of_getElem? hk)
    have hp := hok p hk
    split_ifs at hn with hpeer
    · refine h.act (fun x hx => ?_) hn
      rw [LsAct.receiveMessage] at hx
      cases ht : p.msg.type with
      | tpm =>
        rw [ht] at hx hp
        exact h.inv.acts_receiveTopo hleft hrest hgood ht hp hx
      | lsa =>
        rw [ht] at hx hp
        obtain rfl := Option.some.inj hx
        exact h.inv.acts_receiveLSA hleft hrest hgood ht hp
      | lsaAck | tpmAck =>
        rw [ht] at hx
        obtain rfl := Option.some.inj hx
        refine h.inv.acts_ackIn hleft (fun q hq => (hrest q hq).imp_right ?_) _ _
        rintro rfl
        refine ⟨rfl, fun o _ htells => ?_⟩
        rcases htells with ⟨ht', -⟩ | ⟨ht', -⟩ <;> rw [ht] at ht' <;> cases ht'
    · obtain rfl := Option.some.inj hn
      refine h.drop hleft hrest fun hup => hpeer ?_
      exact h.inv.symm _ _ ((h.inv.peers _ _).2 (mem_of_isUp hup))

theorem InvOn.lose (hn : net.handle (.lose k) = some net') :
    net'.InvOn ids := by
  rw [handle] at hn
  cases hk : net.flight[k]? with
  | none =>
    rw [hk] at hn
    obtain rfl := Option.some.inj hn
    exact h
  | some p =>
    rw [hk] at hn
    obtain rfl := Option.some.inj hn
    split_ifs with hup
    · exact h
    · refine h.drop (fun q hq => mem_of_mem_eraseIdx hq) (fun q hq => ?_) hup
      obtain ⟨i, hi⟩ := mem_iff_getElem?.1 hq
      by_cases hik : i = k
      · exact Or.inr (Option.some.inj (hi.symm.trans (hik ▸ hk)))
      · exact Or.inl (mem_eraseIdx_iff_getElem?.2 ⟨i, hik, hi⟩)

theorem InvOn.handle {e : LsEvent} (hok : net.Benign e)
    (hn : net.handle e = some net') : net'.InvOn ids := by
  cases e with
  | intfChanged a lsl =>
    rw [LsNetwork.handle] at hn
    split_ifs at hn with hlsl
    · exact h.act (fun x hx => h.inv.acts_intfChanged hlsl hx) hn
    · obtain rfl := Option.some.inj hn
      exact h
  | sendUpdates a =>
    rw [LsNetwork.handle] at hn
    exact h.act (fun x hx => h.inv.acts_sendUpdates hx) hn
  | sendBufferedMessages a =>
    rw [LsNetwork.handle] at hn
    refine h.act (fun x hx => ?_) hn
    obtain rfl := Option.some.inj hx
    exact h.inv.acts_sendBufferedMessages
  | deliver k => exact h.deliver hok hn
  | lose k => exact h.lose hn
  | resendMessages a p =>
    rw [LsNetwork.handle] at hn
    refine h.act (fun x hx => ?_) hn
    obtain rfl := Option.some.inj hx
    exact h.inv.acts_resendMessages p

theorem InvOn.mem_of_up (hup : net.Up a b) : b ∈ ids := by
  have hmem := h.inv.symm a b ((h.inv.peers a b).2 (mem_of_isUp hup))
  by_contra hb
  rw [h.alone b hb] at hmem
  cases hmem

theorem InvOn.le_of_path (hq : net.Quiescent ids) {o : ℤ} (ho : o ∈ ids)
    (hpath : Relation.ReflTransGen net.Up o a) :
    a ∈ ids ∧ headSeq (net.record o o) ≤ headSeq (net.record a o) := by
  induction hpath with
  | refl => exact ⟨ho, le_rfl⟩
  | @tail b c _ hup ih =>
    obtain ⟨hb, hle⟩ := ih
    refine ⟨h.mem_of_up hup, ?_⟩
    by_cases hoc : o = c
    · rw [← hoc]
    · refine hle.trans ((h.inv.told b c o hup hoc).resolve_right ?_)
      rintro ⟨msg, hbuf | hflight, -⟩
      · rw [(hq.2 b hb).1] at hbuf
        cases hbuf
      · rw [hq.1] at hflight
        cases hflight

theorem InvOn.converged (hq : net.Quiescent ids) (hc : net.Connected ids) :
    net.Converged ids := by
  intro a ha o ho
  obtain ⟨own, hown, hlinks⟩ := h.inv.own o
  have hrec : net.record o o = own := by
    rw [record, hown]
    rfl
  by_cases hao : a = o
  · rw [hao, hrec]
    exact hlinks
  · have hpath := hc o ho a ha
    have hpeer : (net.node o).peerIdList ≠ [] := by
      rcases hpath.cases_head with heq | ⟨b, hup, -⟩
      · exact absurd heq.symm hao
      · exact ne_nil_of_mem ((h.inv.peers o b).2 (mem_of_isUp hup))
    have hpos : headSeq (net.record o o) ≠ 0 := (hq.2 o ho).2.2 hpeer
    have hle := (h.le_of_path hq ho hpath).2
    cases hf : (net.node a).linkStateDatabase.find o with
    | none =>
      have hnil : net.record a o = [] := by
        rw [record, hf]
        rfl
      rw [hnil] at hle
      exact absurd (Nat.le_zero.1 hle) hpos
    | some l =>
      have hl : net.record a o = l := by
        rw [record, hf]
        rfl
      have hk := h.inv.records a o l (Ne.symm hao) hf
      rw [hl] at hle ⊢
      rw [hk.latest (hk.le.antisymm hle), hrec]
      exact hlinks

end

end LsNetwork

/-- Every connected and quiescent state that a benign run reaches has converged. -/
theorem converged_of_benign (T : Topology) {events : List LsEvent} {net : LsNetwork} {as : List Unit}
    (hok : lsRouting.RunsWith LsNetwork.Benign T.network events)
    (hrun : lsRouting.run T.network events = some (net, as)) (hq : net.Quiescent T.ids)
    (hc : net.Connected T.ids) : net.Converged T.ids := by
  have hstart : T.network.InvOn T.ids := by
    refine ⟨T.inv_network, fun a ha => ?_⟩
    have hn : T.network.node a = .init a [] [] := if_neg ha
    rw [hn]
    rfl
  have hinv : net.InvOn T.ids := by
    refine hok.keeps (fun net e net' _ hI hben hs => ?_) hrun hstart
    obtain ⟨n, hn, heq⟩ := Option.map_eq_some_iff.1 hs
    obtain ⟨rfl, -⟩ := Prod.mk.inj heq
    exact hI.handle hben hn
  exact hinv.converged hq hc

/-- Three nodes in a row; the link between the first two is down at the start. -/
def lineTopology : Topology where
  ids := [0, 1, 2]
  peers a := if a = 0 then [1] else if a = 1 then [0, 2] else [1]
  links a := if a = 0 then [⟨1, .down, 1⟩] else if a = 1 then [⟨0, .down, 1⟩, ⟨2, .up, 1⟩]
    else [⟨1, .up, 1⟩]
  nodup := by decide
  mem_peers := by
    intro a ha b
    simp only [mem_cons, not_mem_nil, or_false] at ha
    rcases ha with rfl | rfl | rfl <;> simp
  symm := by decide
  irrefl := by decide

/-- The first updates of the nodes; then the link comes up. -/
def recovery : List LsEvent :=
  [.sendUpdates 0, .sendUpdates 1, .sendUpdates 2] ++ replicate 4 (.deliver 0) ++
    [.intfChanged 0 [⟨1, .up, 1⟩], .sendBufferedMessages 0,
      .intfChanged 1 [⟨0, .up, 1⟩, ⟨2, .up, 1⟩], .sendBufferedMessages 1]

/-- The messages are delivered in the order in which they have been sent. -/
def inOrderEvents : List LsEvent := recovery ++ replicate 14 (.deliver 0)

/-- The topology message from 0 to 1 overtakes the LSA, which then counts as seen. -/
def overtakenEvents : List LsEvent :=
  recovery ++ [.deliver 1, .sendBufferedMessages 1, .deliver 5, .deliver 0] ++
    replicate 15 (.deliver 0)

theorem connected_lineTopology {net : LsNetwork} (h01 : net.Up 0 1) (h10 : net.Up 1 0) (h12 : net.Up 1 2)
    (h21 : net.Up 2 1) : net.Connected lineTopology.ids := by
  have hto : ∀ a ∈ lineTopology.ids, Relation.ReflTransGen net.Up a 1 := by
    intro a ha
    simp only [lineTopology, mem_cons, not_mem_nil, or_false] at ha
    rcases ha with rfl | rfl | rfl
    · exact .single h01
    · exact .refl
    · exact .single h21
  have hfrom : ∀ b ∈ lineTopology.ids, Relation.ReflTransGen net.Up 1 b := by
    intro b hb
    simp only [lineTopology, mem_cons, not_mem_nil, or_false] at hb
    rcases hb with rfl | rfl | rfl
    · exact .single h10
    · exact .refl
    · exact .single h12
  exact fun a ha b hb => (hto a ha).trans (hfrom b hb)

theorem converged_of_benign_inOrderEvents :
    ∃ net as, lsRouting.run lineTopology.network inOrderEvents = some (net, as) ∧
      net.Quiescent lineTopology.ids ∧ net.Connected lineTopology.ids ∧ net.Converged lineTopology.ids := by
  have hok : lsRouting.RunsWith LsNetwork.Benign lineTopology.network inOrderEvents := by decide +kernel
  have hstate : ∀ r ∈ lsRouting.run lineTopology.network inOrderEvents,
      r.1.Quiescent lineTopology.ids ∧ (r.1.node 0).isUp 1 = true ∧ (r.1.node 1).isUp 0 = true ∧
        (r.1.node 1).isUp 2 = true ∧ (r.1.node 2).isUp 1 = true := by decide +kernel
  cases hrun : lsRouting.run lineTopology.network inOrderEvents with
  | none =>
    have hsome : (lsRouting.run lineTopology.network inOrderEvents).isSome := by decide +kernel
    rw [hrun] at hsome
    cases hsome
  | some r =>
    obtain ⟨hq, h01, h10, h12, h21⟩ := hstate r hrun
    have hc := connected_lineTopology h01 h10 h12 h21
    exact ⟨r.1, r.2, rfl, hq, hc, converged_of_benign lineTopology hok hrun hq hc⟩

/-- The node 2 has no record of the node 0. -/
theorem not_converged_overtakenEvents :
    ∃ net as, lsRouting.run lineTopology.network overtakenEvents = some (net, as) ∧
      net.Quiescent lineTopology.ids ∧ net.Connected lineTopology.ids ∧
        ¬net.Converged lineTopology.ids := by
  have hstate : ∀ r ∈ lsRouting.run lineTopology.network overtakenEvents,
      r.1.Quiescent lineTopology.ids ∧ ¬r.1.Converged lineTopology.ids ∧ (r.1.node 0).isUp 1 = true ∧
        (r.1.node 1).isUp 0 = true ∧ (r.1.node 1).isUp 2 = true ∧ (r.1.node 2).isUp 1 = true := by
    decide +kernel
  cases hrun : lsRouting.run lineTopology.network overtakenEvents with
  | none =>
    have hsome : (lsRouting.run lineTopology.network overtakenEvents).isSome := by decide +kernel
    rw [hrun] at hsome
    cases hsome
  | some r =>
    obtain ⟨hq, hn, h01, h10, h12, h21⟩ := hstate r hrun
    exact ⟨r.1, r.2, rfl, hq, connected_lineTopology h01 h10 h12 h21, hn⟩

end Ns2.LinkState
