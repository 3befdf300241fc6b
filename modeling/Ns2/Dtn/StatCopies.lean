import Mathlib.Algebra.Order.BigOperators.Group.List
import Ns2.Dtn.StatReceive

/-! The copies of a message against the nodes that have seen it, over runs in which agents
write their own records, report them and merge the reports of others in any order. Reports
stay under way, so that they arrive late, twice or never. -/

namespace Ns2

open Option

variable {bin : ℕ} {value : ℤ}

/-- Copies only from the start index on. -/
structure Report.FromStart (axeLength : ℕ) (r : Report) : Prop where
  start : 0 ≤ r.miStartIndex
  bits : ∀ k : ℤ, 0 ≤ k → k < axeLength → r.bitMap k = 0 ∨ r.bitMap k = 1 ∧ r.miStartIndex ≤ k

/-- Copies only from the start index on, and each of them seen. -/
structure StatNode.Seen (axeLength : ℕ) (n : StatNode) : Prop where
  start : 0 ≤ n.miStartIndex
  bits : ∀ k : ℤ, 0 ≤ k → k < axeLength → n.bitMap k = 0 ∨ n.bitMap k = 1 ∧ n.miStartIndex ≤ k
  seen : ∀ k : ℤ, 0 ≤ k → k < axeLength → n.bitMap k = 1 → n.miBitMap k = 1
  flags : ∀ k : ℤ, 0 ≤ k → k < axeLength → n.miBitMap k = 0 ∨ n.miBitMap k = 1

variable {axeLength : ℕ} {n n' : StatNode} {r : Report}

theorem StatNode.Seen.le (h : n.Seen axeLength) {k : ℤ} (h0 : 0 ≤ k) (hk : k < axeLength) :
    n.bitMap k ≤ n.miBitMap k := by
  rcases h.bits k h0 hk with hb | ⟨hb, -⟩
  · rcases h.flags k h0 hk with hm | hm <;> omega
  · rw [hb, h.seen k h0 hk hb]

theorem StatNode.Seen.report (h : n.Seen axeLength) (lm : ℚ) :
    (n.report axeLength lm).FromStart axeLength where
  start := h.start
  bits := fun k h0 hk => by
    simp only [StatNode.report, if_pos (And.intro h0 hk)]
    exact h.bits k h0 hk

theorem Report.FromStart.update (h : r.FromStart axeLength)
    (hflags : ∀ k : ℤ, 0 ≤ k → k < axeLength → n.miBitMap k = 0 ∨ n.miBitMap k = 1) :
    (r.update axeLength n).Seen axeLength := by
  have hstart : r.miStartIndex ≠ -1 := by have := h.start; omega
  simp only [Report.update, StatNode.updateBitMap, StatNode.updateMiBitMap, Bool.not_false,
    true_and, ne_eq, hstart, not_false_eq_true, if_true]
  refine ⟨h.start, fun k h0 hk => ?_, fun k h0 hk hb => ?_, fun k h0 hk => ?_⟩
  · simpa only [if_pos (And.intro h0 hk)] using h.bits k h0 hk
  · simp only [if_pos (And.intro h0 hk)] at hb
    rcases h.bits k h0 hk with hz | ⟨-, hle⟩
    · omega
    · exact if_pos ⟨hle, hk⟩
  · by_cases hle : r.miStartIndex ≤ k
    · exact Or.inr (if_pos ⟨hle, hk⟩)
    · simpa only [hle, false_and, if_false] using hflags k h0 hk

theorem Report.FromStart.create (h : r.FromStart axeLength) : (r.create axeLength).Seen axeLength := by
  rw [Report.create_eq_update]
  exact h.update fun _ _ _ => Or.inl rfl

theorem setTimeBinValue_eq {newOld : Bool}
    (h : n.setTimeBinValue axeLength bin value true newOld = some n') :
    n'.miStartIndex = (if newOld then (bin : ℤ) else n.miStartIndex) ∧
    (∀ k : ℤ, n'.bitMap k = if value = 0 ∧ (bin : ℤ) < k ∧ k < axeLength then value
      else if value = 1 ∧ k = bin then value else n.bitMap k) ∧
    ∀ k : ℤ, n'.miBitMap k =
      if k = bin ∨ newOld = true ∧ (bin : ℤ) < k ∧ k < axeLength then 1 else n.miBitMap k := by
  simp only [StatNode.setTimeBinValue, if_true, ite_none_left_eq_some] at h
  obtain rfl := some.inj h.2
  exact ⟨rfl, fun _ => rfl, fun _ => rfl⟩

theorem seen_setTimeBinValue_new {lv : ℚ}
    (h : (StatNode.new lv).setTimeBinValue axeLength bin value true true = some n') :
    n'.Seen axeLength := by
  obtain ⟨hstart, hbits, hflags⟩ := setTimeBinValue_eq h
  simp only [if_true] at hstart
  have hbit : ∀ k : ℤ, n'.bitMap k = 0 ∨ n'.bitMap k = 1 ∧ k = bin := by
    intro k
    rw [hbits k]
    split_ifs with hzero hone
    · exact Or.inl hzero.1
    · exact Or.inr hone
    · exact Or.inl rfl
  refine ⟨by omega, fun k _ _ => ?_, fun k h0 hk hb => ?_, fun k _ _ => ?_⟩
  · exact (hbit k).imp_right fun hb => ⟨hb.1, by omega⟩
  · rcases hbit k with hb' | hb'
    · omega
    · rw [hflags k, if_pos (Or.inl hb'.2)]
  · rw [hflags k]
    split_ifs
    · exact Or.inr rfl
    · exact Or.inl rfl

theorem StatNode.Seen.setTimeBinValue (hn : n.Seen axeLength)
    (h : n.setTimeBinValue axeLength bin value true false = some n')
    (hforward : value = 1 → n.miStartIndex ≤ bin) : n'.Seen axeLength := by
  obtain ⟨hstart, hbits, hflags⟩ := setTimeBinValue_eq h
  simp only [Bool.false_eq_true, if_false, false_and, or_false] at hstart hflags
  refine ⟨hstart ▸ hn.start, fun k h0 hk => ?_, fun k h0 hk hb => ?_, fun k h0 hk => ?_⟩
  · rw [hbits k, hstart]
    split_ifs with hzero hone
    · exact Or.inl hzero.1
    · exact Or.inr ⟨hone.1, hone.2 ▸ hforward hone.1⟩
    · exact hn.bits k h0 hk
  · rw [hflags k]
    split_ifs with hbin
    · rfl
    · rw [hbits k] at hb
      split_ifs at hb with hzero hone
      · omega
      · exact absurd hone.2 hbin
      · exact hn.seen k h0 hk hb
  · rw [hflags k]
    split_ifs
    · exact Or.inr rfl
    · exact hn.flags k h0 hk

/-- Every record of the message has its copies seen. -/
structure DtnMessage.Tracked (axeLength : ℕ) (m : DtnMessage) : Prop where
  nodes : ∀ nodeId n, m.mapNodes.find nodeId = some n → n.Seen axeLength
  status : m.messageStatus = 0 ∨ m.messageStatus = 1

namespace DtnMessage

variable {m m' : DtnMessage} {endpoint nodeId : List Char}
variable {now : ℚ}

theorem Tracked.setNode (h : m.Tracked axeLength) (hn : n.Seen axeLength) (now : ℚ) :
    ((m.getLifeTime now).setNode nodeId n).Tracked axeLength := by
  refine ⟨fun nodeId' v hv => ?_, h.status⟩
  have hfind : (m.mapNodes.set nodeId n).find nodeId' = some v := hv
  rw [OrdMap.find_set] at hfind
  split_ifs at hfind
  · exact some.inj hfind ▸ hn
  · exact h.nodes nodeId' v hfind

theorem Tracked.addNodeBin (h : m.Tracked axeLength) {bin statVersion : ℕ} {value : ℤ}
    {meetingTime : ℚ}
    (hadd : m.addNodeBin axeLength endpoint nodeId bin value meetingTime now statVersion = some m')
    (hforward : value = 1 → ∀ n, m.mapNodes.find nodeId = some n → n.miStartIndex ≤ bin) :
    m'.Tracked axeLength := by
  rw [DtnMessage.addNodeBin] at hadd
  split_ifs at hadd
  split at hadd
  · next n hn =>
    obtain ⟨v, hv, rfl⟩ := map_eq_some_iff.1 hadd
    have hseen := (h.nodes nodeId n hn).setTimeBinValue hv fun hvalue => hforward hvalue n hn
    have hmet : ({ v with lastMeetingTime := meetingTime } : StatNode).Seen axeLength :=
      ⟨hseen.start, hseen.bits, hseen.seen, hseen.flags⟩
    exact h.setNode hmet now
  · obtain ⟨v, hv, rfl⟩ := map_eq_some_iff.1 hadd
    exact h.setNode (seen_setTimeBinValue_new hv) now

theorem Tracked.addNodeReport (h : m.Tracked axeLength) (hr : r.FromStart axeLength)
    (hadd : m.addNodeReport axeLength endpoint nodeId r = some m') : m'.Tracked axeLength := by
  rw [DtnMessage.addNodeReport] at hadd
  split_ifs at hadd
  obtain ⟨v, hv, rfl⟩ := map_eq_some_iff.1 hadd
  refine ⟨fun nodeId' n hn => ?_, h.status⟩
  rw [Message.addNode] at hv
  split_ifs at hv
  split at hv
  · next n₀ hn₀ =>
    split_ifs at hv
    · obtain rfl := some.inj hv
      rw [OrdMap.find_set] at hn
      split_ifs at hn
      · exact some.inj hn ▸ hr.update (h.nodes nodeId n₀ hn₀).flags
      · exact h.nodes nodeId' n hn
    · obtain rfl := some.inj hv
      exact h.nodes nodeId' n hn
  · obtain rfl := some.inj hv
    rw [OrdMap.find_set] at hn
    split_ifs at hn
    · exact some.inj hn ▸ hr.create
    · exact h.nodes nodeId' n hn

/-- The records left in `m'` start where they started in `m`. -/
def SameStarts (m m' : DtnMessage) : Prop :=
  ∀ nodeId n', m'.mapNodes.find nodeId = some n' →
    ∃ n, m.mapNodes.find nodeId = some n ∧ n.miStartIndex = n'.miStartIndex

theorem SameStarts.refl (m : DtnMessage) : SameStarts m m := fun _ n' h => ⟨n', h, rfl⟩

theorem Tracked.setTtlVersion (h : m.Tracked axeLength)
    (hset : m.setTtlVersion axeLength endpoint now = some m') :
    m'.Tracked axeLength ∧ SameStarts m m' := by
  have hget : (m.getLifeTime now).Tracked axeLength := ⟨h.nodes, h.status⟩
  rw [DtnMessage.setTtlVersion] at hset
  split_ifs at hset
  · split at hset
    · next n hn =>
      split_ifs at hset
      · obtain ⟨v, hv, rfl⟩ := map_eq_some_iff.1 hset
        have hseen := (hget.nodes endpoint n hn).setTimeBinValue hv fun h0 => absurd h0 (by simp)
        refine ⟨h.setNode hseen now, fun nodeId n' hn' => ?_⟩
        have hfind : (m.mapNodes.set endpoint v).find nodeId = some n' := hn'
        rw [OrdMap.find_set] at hfind
        split_ifs at hfind with hid
        · obtain rfl := some.inj hfind
          exact ⟨n, hid ▸ hn, (setTimeBinValue_eq hv).1.symm⟩
        · exact ⟨n', hfind, rfl⟩
      · obtain rfl := some.inj hset
        exact ⟨hget, SameStarts.refl m⟩
    · obtain rfl := some.inj hset
      exact ⟨⟨h.nodes, h.status⟩, SameStarts.refl m⟩
  · obtain rfl := some.inj hset
    exact ⟨hget, SameStarts.refl m⟩

theorem Tracked.isValid (h : m.Tracked axeLength) {binIndex : ℤ} {valid : Bool}
    (hvalid : m.isValid axeLength endpoint now binIndex = some (m', valid)) :
    m'.Tracked axeLength ∧ SameStarts m m' := by
  rw [DtnMessage.isValid] at hvalid
  split_ifs at hvalid
  · obtain ⟨rfl, -⟩ := Prod.mk.inj (some.inj hvalid)
    exact ⟨h, SameStarts.refl m⟩
  · obtain ⟨m₁, hset, hvalid⟩ := bind_eq_some_iff.1 hvalid
    obtain ⟨h₁, hstarts⟩ := h.setTtlVersion hset
    dsimp only at hvalid
    split_ifs at hvalid
    all_goals first
      | (obtain ⟨m₂, -, heq⟩ := map_eq_some_iff.1 hvalid
         obtain ⟨rfl, -⟩ := Prod.mk.inj heq
         exact ⟨⟨fun _ _ hn => (by cases hn), Or.inr rfl⟩, fun _ _ hn => (by cases hn)⟩)
      | (obtain ⟨rfl, -⟩ := Prod.mk.inj (some.inj hvalid)
         exact ⟨h₁, hstarts⟩)

theorem Tracked.le_sum (h : m.Tracked axeLength) (hstatus : m.messageStatus ≠ 1)
    (hmap : m.updateMiMap axeLength = some m') {k : ℤ} (h0 : 0 ≤ k) (hk : k < axeLength) :
    (m'.updateNiMap axeLength).niMap k ≤ (m'.updateNiMap axeLength).miMap k := by
  have hzero : m.messageStatus = 0 := h.status.resolve_right hstatus
  simp only [DtnMessage.updateMiMap, if_pos hzero] at hmap
  split_ifs at hmap
  obtain rfl := some.inj hmap
  simp only [DtnMessage.updateNiMap, if_pos hzero, if_pos (And.intro h0 hk)]
  refine List.sum_le_sum fun e he => ?_
  exact (h.nodes e.1 e.2 (OrdMap.mem_entries.1 he)).le h0 hk

end DtnMessage

namespace StatOwner

variable {ns ns' : StatOwner}
variable {bundleId : List Char} {lt ttl now : ℚ}

/-- Every message of the matrix is tracked. -/
structure Tracked (axeLength : ℕ) (ns : StatOwner) : Prop where
  axe : ns.axeLength = axeLength
  messages : ∀ id m, ns.messagesMatrix.find id = some m → m.Tracked axeLength

theorem Tracked.setMessage (h : ns.Tracked axeLength) {id : List Char} {m : DtnMessage}
    (hm : m.Tracked axeLength) : (ns.setMessage id m).Tracked axeLength := by
  refine ⟨h.axe, fun id' m' hm' => ?_⟩
  have hfind : (ns.messagesMatrix.set id m).find id' = some m' := hm'
  rw [OrdMap.find_set] at hfind
  split_ifs at hfind
  · exact some.inj hfind ▸ hm
  · exact h.messages id' m' hfind

theorem Tracked.openMessage (h : ns.Tracked axeLength) (id : List Char) (ttl now : ℚ) :
    (ns.openMessage id ttl now).1.Tracked axeLength ∧
    (ns.openMessage id ttl now).2.Tracked axeLength := by
  rw [StatOwner.openMessage]
  split
  · next m hm => exact ⟨⟨(h.messages id m hm).nodes, (h.messages id m hm).status⟩, h⟩
  · exact ⟨⟨fun _ _ hn => (by cases hn), Or.inl rfl⟩, h.axe, h.messages⟩

/-- A copy is recorded at the elapsed time `lt` in no bin below the record's start index. -/
def Forward (bundleId nodeId : List Char) (lt : ℚ) (ns : StatOwner) : Prop :=
  ∀ m n bin, ns.messagesMatrix.find bundleId = some m → m.mapNodes.find nodeId = some n →
    ns.convertElapsedTimeToBinIndex lt = some bin → n.miStartIndex ≤ bin

section

variable (h : ns.Tracked axeLength)
include h

theorem Tracked.putBundle {nodeId : List Char}
    (hput : ns.putBundle bundleId nodeId lt ttl now = some ns')
    (hforward : ns.Forward bundleId nodeId lt) : ns'.Tracked axeLength := by
  rw [StatOwner.putBundle, ite_none_left_eq_some] at hput
  replace hput := hput.2
  obtain ⟨bin, hbin, hput⟩ := bind_eq_some_iff.1 hput
  obtain ⟨m', hm', rfl⟩ := map_eq_some_iff.1 hput
  obtain ⟨hm, hns⟩ := h.openMessage bundleId ttl now
  have hset : ((ns.openMessage bundleId ttl now).1.setLifeTime lt now).Tracked axeLength :=
    ⟨hm.nodes, hm.status⟩
  refine hns.setMessage ?_
  split_ifs at hm'
  · rw [h.axe] at hm'
    refine hset.addNodeBin hm' fun _ n hn => ?_
    have hn : (ns.openMessage bundleId ttl now).1.mapNodes.find nodeId = some n := hn
    rw [StatOwner.openMessage] at hn
    split at hn
    · next m hfind => exact hforward m n bin hfind hn hbin
    · cases hn
  · exact some.inj hm' ▸ hset

theorem Tracked.getNumberOfInvalidMessages {r : StatOwner × ℤ}
    (hr : ns.getNumberOfInvalidMessages now = some r) :
    r.1.Tracked axeLength ∧ r.1.axeSubdivision = ns.axeSubdivision ∧
    ∀ id m', r.1.messagesMatrix.find id = some m' →
      ∃ m, ns.messagesMatrix.find id = some m ∧ DtnMessage.SameStarts m m' := by
  refine foldlM_keeps_of_mem (Q := fun r : StatOwner × ℤ => r.1.Tracked axeLength ∧
    r.1.axeSubdivision = ns.axeSubdivision ∧ ∀ id m', r.1.messagesMatrix.find id = some m' →
      ∃ m, ns.messagesMatrix.find id = some m ∧ DtnMessage.SameStarts m m')
    (fun e he s s' hs hQ => ?_) hr ⟨h, rfl, fun id m hm => ⟨m, hm, DtnMessage.SameStarts.refl m⟩⟩
  obtain ⟨v, hv, rfl⟩ := map_eq_some_iff.1 hs
  have hfind : ns.messagesMatrix.find e.1 = some e.2 := OrdMap.mem_entries.1 he
  rw [h.axe] at hv
  obtain ⟨hvalid, hstarts⟩ := (h.messages e.1 e.2 hfind).isValid hv
  refine ⟨hQ.1.setMessage hvalid, hQ.2.1, fun id m' hm' => ?_⟩
  have hset : (s.1.messagesMatrix.set e.1 v.1).find id = some m' := hm'
  rw [OrdMap.find_set] at hset
  split_ifs at hset with hid
  · obtain rfl := some.inj hset
    exact ⟨e.2, hid ▸ hfind, hstarts⟩
  · exact hQ.2.2 id m' hset

theorem Tracked.addBundle {nodeId : List Char}
    (hadd : ns.addBundle bundleId nodeId lt ttl now = some ns')
    (hforward : ns.Forward bundleId nodeId lt) : ns'.Tracked axeLength := by
  rw [StatOwner.addBundle] at hadd
  split_ifs at hadd
  · obtain ⟨r, hr, hadd⟩ := bind_eq_some_iff.1 hadd
    obtain ⟨htracked, hsub, hstarts⟩ := h.getNumberOfInvalidMessages hr
    split_ifs at hadd
    · refine htracked.putBundle hadd fun m' n' bin hm' hn' hbin => ?_
      obtain ⟨m, hm, hsame⟩ := hstarts bundleId m' hm'
      obtain ⟨n, hn, heq⟩ := hsame nodeId n' hn'
      refine heq ▸ hforward m n bin hm hn ?_
      rwa [convertElapsedTimeToBinIndex, hsub, htracked.axe, ← h.axe] at hbin
    · exact some.inj hadd ▸ htracked
  · exact h.putBundle hadd hforward
  · exact some.inj hadd ▸ h
  · exact some.inj hadd ▸ h

theorem Tracked.updateBundleStatus {nodeId : List Char} {del : ℤ}
    (hupdate : ns.updateBundleStatus nodeId bundleId del lt ttl now = some ns')
    (hforward : del = 1 → ns.Forward bundleId nodeId lt) : ns'.Tracked axeLength := by
  obtain ⟨bin, hbin, hupdate⟩ := bind_eq_some_iff.1 hupdate
  split at hupdate
  · next m hm =>
    obtain ⟨m', hm', rfl⟩ := map_eq_some_iff.1 hupdate
    rw [h.axe] at hm'
    have htracked := (h.messages bundleId m hm).addNodeBin hm' fun hdel n hn =>
      hforward hdel m n bin hm hn hbin
    exact h.setMessage ⟨htracked.nodes, htracked.status⟩
  · exact some.inj hupdate ▸ h

theorem Tracked.receiveMessage {id : List Char}
    {reports : List (List Char × Report)} (hreports : ∀ e ∈ reports, e.2.FromStart axeLength)
    (hreceive : ns.receiveMessage id ttl now reports = some ns') : ns'.Tracked axeLength := by
  obtain ⟨m', hm', rfl⟩ := map_eq_some_iff.1 hreceive
  obtain ⟨hm, hns⟩ := h.openMessage id ttl now
  refine hns.setMessage (foldlM_keeps_of_mem (fun e he m m' hadd htracked => ?_) hm' hm)
  rw [h.axe] at hadd
  exact htracked.addNodeReport (hreports e he) hadd

end

end StatOwner

namespace StatNetwork

variable {N N' : StatNetwork}

/-- No copy is recorded in a bin below the start index of its record. -/
def RecordsForward (N : StatNetwork) : StatEvent → Prop
  | .addBundle agent bundleId nodeId lt _ _ => (N.node agent).Forward bundleId nodeId lt
  | .updateBundleStatus agent nodeId bundleId del lt _ _ =>
    del = 1 → (N.node agent).Forward bundleId nodeId lt
  | _ => True

structure Tracked (axeLength : ℕ) (N : StatNetwork) : Prop where
  nodes : ∀ agent, (N.node agent).Tracked axeLength
  air : ∀ e ∈ N.air, e.2.2.FromStart axeLength

section

variable (h : N.Tracked axeLength)
include h

theorem Tracked.setNode {agent : List Char} {ns : StatOwner}
    (hns : ns.Tracked axeLength) : (N.setNode agent ns).Tracked axeLength := by
  refine ⟨fun a => ?_, h.air⟩
  by_cases ha : a = agent
  · subst ha
    simpa only [StatNetwork.setNode, Function.update_self] using hns
  · simpa only [StatNetwork.setNode, Function.update_of_ne ha] using h.nodes a

theorem Tracked.picked (bundleId : List Char) (picks : List ℕ) :
    ∀ e ∈ N.picked bundleId picks, e.2.FromStart axeLength := by
  intro e he
  obtain ⟨i, -, hi⟩ := List.mem_filterMap.1 he
  obtain ⟨x, hx, hi⟩ := bind_eq_some_iff.1 hi
  split_ifs at hi
  obtain rfl := some.inj hi
  exact h.air x (List.mem_of_getElem? hx)

theorem Tracked.step {e : StatEvent} (hforward : N.RecordsForward e)
    (hstep : N.step e = some N') : N'.Tracked axeLength := by
  cases e with
  | addBundle agent bundleId nodeId lt ttl now =>
    obtain ⟨ns, hns, rfl⟩ := map_eq_some_iff.1 hstep
    exact h.setNode ((h.nodes agent).addBundle hns hforward)
  | updateBundleStatus agent nodeId bundleId del lt ttl now =>
    obtain ⟨ns, hns, rfl⟩ := map_eq_some_iff.1 hstep
    exact h.setNode ((h.nodes agent).updateBundleStatus hns hforward)
  | send agent bundleId nodeId lm =>
    rw [StatNetwork.step] at hstep
    split at hstep
    · next m hm =>
      split_ifs at hstep
      split at hstep
      · next n hn =>
        obtain rfl := some.inj hstep
        refine ⟨h.nodes, fun e he => ?_⟩
        rcases List.mem_append.1 he with he | he
        · exact h.air e he
        · obtain rfl := List.mem_singleton.1 he
          rw [(h.nodes agent).axe]
          exact (((h.nodes agent).messages bundleId m hm).nodes nodeId n hn).report lm
      · exact some.inj hstep ▸ h
    · exact some.inj hstep ▸ h
  | receive agent bundleId ttl now picks =>
    obtain ⟨ns, hns, rfl⟩ := map_eq_some_iff.1 hstep
    exact h.setNode ((h.nodes agent).receiveMessage (h.picked bundleId picks) hns)

theorem Tracked.run {es : List StatEvent} {as : List Unit}
    (hforward : machine.RunsWith RecordsForward N es) (hrun : machine.run N es = some (N', as)) :
    N'.Tracked axeLength := by
  refine Machine.RunsWith.keeps (fun N e N' a hN hok hstep => ?_) hforward hrun h
  obtain ⟨N₁, hN₁, heq⟩ := map_eq_some_iff.1 hstep
  obtain ⟨rfl, -⟩ := Prod.mk.inj heq
  exact hN.step hok hN₁

end

/-- Agents with one axis and nothing in their matrices. -/
structure Fresh (axeLength : ℕ) (N : StatNetwork) : Prop where
  axe : ∀ agent, (N.node agent).axeLength = axeLength
  matrix : ∀ agent, (N.node agent).messagesMatrix = OrdMap.empty
  air : N.air = []

theorem Fresh.tracked (h : N.Fresh axeLength) : N.Tracked axeLength := by
  refine ⟨fun agent => ⟨h.axe agent, fun id m hm => ?_⟩, fun e he => ?_⟩
  · rw [h.matrix agent] at hm
    cases hm
  · rw [h.air] at he
    cases he

/-- In the state `N` each copy of a message that is not frozen is seen, bin by bin. -/
def CopiesSeen (axeLength : ℕ) (N : StatNetwork) : Prop :=
  ∀ agent id m, (N.node agent).messagesMatrix.find id = some m → m.messageStatus ≠ 1 →
    ∀ k : ℤ, 0 ≤ k → k < axeLength →
      (∀ nodeId n, m.mapNodes.find nodeId = some n → n.bitMap k = 1 → n.miBitMap k = 1) ∧
      ∀ m', m.updateMiMap axeLength = some m' →
        (m'.updateNiMap axeLength).niMap k ≤ (m'.updateNiMap axeLength).miMap k

theorem copies_seen (h : N.Fresh axeLength) {es : List StatEvent} {as : List Unit}
    (hforward : machine.RunsWith RecordsForward N es) (hrun : machine.run N es = some (N', as)) :
    N'.CopiesSeen axeLength := by
  intro agent id m hm hstatus k h0 hk
  have htracked := ((h.tracked.run hforward hrun).nodes agent).messages id m hm
  refine ⟨fun nodeId n hn hb => ?_, fun m' hm' => htracked.le_sum hstatus hm' h0 hk⟩
  exact (htracked.nodes nodeId n hn).seen k h0 hk hb

/-- Every agent has two bins of one second and the first spraying policy. -/
def twoBins : StatNetwork :=
  ⟨fun agent => ⟨agent, 2, 1, 0, 10, 0, OrdMap.empty⟩, []⟩

/-- The first agent stores the bundle at `lt` and then at `lt'`, the second one is told. -/
def reported (lt lt' : ℚ) : List StatEvent :=
  [.addBundle ['a'] ['R'] ['a'] lt 100 0, .addBundle ['a'] ['R'] ['a'] lt' 100 1,
    .send ['a'] ['R'] ['a'] 1, .receive ['b'] ['R'] 100 2 [0]]

theorem fresh_twoBins : twoBins.Fresh 2 := ⟨fun _ => rfl, fun _ => rfl, rfl⟩

/-- Time goes on between the two copies. -/
theorem copies_seen_reported : ∃ N' as, machine.run twoBins (reported 1 2) = some (N', as) ∧
    N'.CopiesSeen 2 := by
  have hforward : machine.RunsWith RecordsForward twoBins (reported 1 2) := by
    refine ⟨fun m n bin hm _ _ => ?_, fun s a hs => ?_⟩
    · cases hm
    refine ⟨fun m n bin hm hn _ => ?_, fun _ _ _ => ⟨trivial, fun _ _ _ => ⟨trivial, fun _ _ _ => trivial⟩⟩⟩
    have hstart : ((machine.step twoBins (.addBundle ['a'] ['R'] ['a'] 1 100 0)).bind fun r =>
        ((r.1.node ['a']).messagesMatrix.find ['R']).bind fun m =>
          (m.mapNodes.find ['a']).map StatNode.miStartIndex) = some 0 := by decide +kernel
    rw [hs, bind_some, hm, bind_some, hn, map_some, some.injEq] at hstart
    omega
  have hruns : (machine.run twoBins (reported 1 2)).isSome = true := by decide +kernel
  obtain ⟨r, hr⟩ := isSome_iff_exists.1 hruns
  exact ⟨r.1, r.2, hr, copies_seen fresh_twoBins hforward hr⟩

/-- The second copy goes into a bin below the first one. -/
theorem not_copies_seen :
    ¬ ∀ es as N', machine.run twoBins es = some (N', as) → N'.CopiesSeen 2 := by
  intro h
  have htold : ((machine.run twoBins (reported 2 0)).bind fun r =>
      ((r.1.node ['b']).messagesMatrix.find ['R']).bind fun m =>
        (m.mapNodes.find ['a']).map fun n => (m.messageStatus, n.bitMap 0, n.miBitMap 0)) =
      some (0, 1, 0) := by decide +kernel
  obtain ⟨r, hr, htold⟩ := bind_eq_some_iff.1 htold
  obtain ⟨m, hm, htold⟩ := bind_eq_some_iff.1 htold
  obtain ⟨n, hn, heq⟩ := map_eq_some_iff.1 htold
  simp only [Prod.mk.injEq] at heq
  have hseen := (h _ _ _ hr ['b'] ['R'] m hm (by omega) 0 le_rfl (by decide)).1 ['a'] n hn heq.2.1
  omega
end StatNetwork

end Ns2
