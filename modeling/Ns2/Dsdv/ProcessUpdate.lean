import Ns2.Dsdv.MakeUpdate

/-! DSDV: an update that has been received, and the packets that have waited for it. -/

namespace Ns2.Dsdv

open List Option

/-- `MAX_QUEUE_LENGTH` -/
def maxQueueLength : ℕ := 5

/-- A packet that has been handed to the target with its next hop, or that has been dropped. -/
inductive Output where
  | sent (uid : ℕ) (hop : ℤ)
  | dropped (uid : ℕ)

def Output.uid : Output → ℕ
  | sent uid _ => uid
  | dropped uid => uid

/-- The table, and what has left since the update came. -/
structure Router where
  table : RoutingTable
  out : List Output

/-- The clock, the parameters of the agent, and the sender of the update. -/
structure Setting where
  now : ℚ
  myaddr : ℤ
  alpha : ℚ
  wst0 : ℚ
  src : ℤ

/-- A packet as `recv` hands it to `forwardPacket`; `none` is dropped. -/
def DataPacket.accept (p : DataPacket) : Option DataPacket :=
  if p.own then
    if p.numForwards = 0 then some { p with ttl := 32 } else none
  else
    let ttl := (p.ttl + (2 ^ 32 - 1)) % 2 ^ 32
    if ttl = 0 then none else some { p with ttl := ttl }

/-- A packet that starts anew whenever it is received. -/
def DataPacket.fresh (p : DataPacket) : Bool := p.own && p.numForwards = 0

/-- An entry that is not to be advertised before next week. -/
def Setting.quiet (c : Setting) : RtableEnt :=
  { RtableEnt.zero with
    advertiseOkAt := c.now + 604800
    changedAt := c.now
    newSeqnumAt := c.now
    wst := c.wst0 }

namespace Router

variable (c : Setting) (dst : ℤ)

/-- `forwardPacket`, for a destination of the own domain. -/
def forwardPacket (p : DataPacket) (s : Router) : Router :=
  match s.table.find dst with
  | some e =>
    if e.metric ≠ big then
      { s with out := s.out ++ [.sent p.uid (if e.metric > 1 then e.hop else dst)] }
    else
      let q := e.q.getD [] ++ [p]
      let excess := q.length - maxQueueLength
      { table := s.table.set dst { e with q := some (q.drop excess) }
        out := s.out ++ (q.take excess).map fun p => .dropped p.uid }
  | none => { s with
    table := s.table.set dst { c.quiet with
      hop := dst
      metric := big
      q := some [p] } }

def recv (p : DataPacket) (s : Router) : Router :=
  match p.accept with
  | some p => s.forwardPacket c dst p
  | none => { s with out := s.out ++ [.dropped p.uid] }

/-- The loop over the queue of an entry. -/
def drain : ℕ → Router → Option Router
  | 0, _ => none
  | fuel + 1, s =>
    match s.table.find dst with
    | some e =>
      match e.q with
      | some (p :: l) =>
        drain fuel (Router.recv c dst p { s with table := s.table.set dst { e with q := some l } })
      | _ => some s
    | none => some s

end Router

/-- What a record says, with the meta data; `old` is the entry so far. -/
def Setting.learned (c : Setting) (r : UpdateRecord) (prte : Option RtableEnt) : RtableEnt :=
  let old := prte.getD RtableEnt.zero
  let metric := if r.metric = big then big else r.metric + 1
  let wst := match prte with
    | some e =>
      if e.seqnum = r.seqnum then e.wst
      else c.alpha * e.wst + (1 - c.alpha) * (e.changedAt - e.newSeqnumAt)
    | none => c.wst0
  { old with
    hop := c.src
    metric := metric
    seqnum := r.seqnum
    changedAt := c.now
    wst := wst
    newSeqnumAt := if prte.isSome ∧ old.seqnum = r.seqnum then old.newSeqnumAt else c.now
    advertiseOkAt := if metric ≠ big ∧ (prte = none ∨ old.metric ≠ big) then c.now + wst * 2 else c.now }

/-- `updateRoute` and `needTriggeredUpdate`; `none` is an assertion that fails. -/
def Setting.install (c : Setting) (dst : ℤ) (rte : RtableEnt) (trigger : Bool) (t : RoutingTable) :
    Option (RtableEnt × RoutingTable) :=
  if big < rte.metric ∨ (trigger = true ∧ rte.advertiseOkAt < c.now) then none
  else some (rte, t.set dst rte)

/-- The decision whether to update the table. -/
def Setting.judge (c : Setting) (r : UpdateRecord) (t : RoutingTable) :
    Option (RtableEnt × RoutingTable) :=
  let rte := c.learned r (t.find r.dst)
  match t.find r.dst with
  | none =>
    let changes : Bool := rte.metric < big
    c.install r.dst { rte with advertMetric := changes } changes t
  | some e =>
    let changes : Bool := rte.metric ≠ e.lastAdvertisedMetric
    if e.seqnum = rte.seqnum then
      if rte.metric < e.metric then c.install r.dst { rte with advertMetric := changes } changes t
      else some (rte, t)
    else if e.seqnum < rte.seqnum then
      c.install r.dst { rte with
        advertSeqnum := true
        advertMetric := changes } false t
    else if rte.metric = big ∧ e.metric ≠ big then
      some (rte, t.set r.dst { e with
        advertiseOkAt := c.now
        advertMetric := true })
    else some (rte, t)

namespace Router

variable (c : Setting) (fuel : ℕ)

def processRecord (s : Router) (r : UpdateRecord) : Option Router :=
  if r.dst = c.myaddr then some s
  else
    (c.judge r s.table).bind fun (rte, t) =>
      if rte.q.isSome ∧ rte.metric ≠ big then
        (drain c r.dst fuel { s with table := t }).bind fun s =>
          if big < rte.metric then none
          else some { s with table := s.table.set r.dst { rte with q := none } }
      else some { s with table := t }

/-- The entry that keeps the timeout of a sender. -/
def greet (s : Router) : Router :=
  match s.table.find c.src with
  | some _ => s
  | none => { s with
    table := s.table.set c.src { c.quiet with
      hop := c.src
      metric := 1 } }

end Router

variable {t' : RoutingTable} {d : ℤ}

/-- `processUpdate`, with the records that are in the packet. -/
def processUpdate (c : Setting) (fuel : ℕ) (rs : List UpdateRecord) (t : RoutingTable) : Option Router :=
  (rs.foldlM (Router.processRecord c fuel) ⟨t, []⟩).map (Router.greet c)

/-- The packets of a destination wait because it is out of reach, and they are not too many. -/
def BufferedAt (t : RoutingTable) (d : ℤ) : Prop :=
  ∀ e ∈ t.find d, ∀ l ∈ e.q, e.metric = big ∧ l.length ≤ maxQueueLength

/-- What has waited for a destination still waits, or it has left and the destination is in reach. -/
def KeptAt (t : RoutingTable) (s : Router) (d : ℤ) : Prop :=
  ∀ e ∈ t.find d, ∀ l ∈ e.q, ∀ p ∈ l, ∃ e' ∈ s.table.find d,
    (∃ l' ∈ e'.q, ∃ p' ∈ l', p'.uid = p.uid) ∨ ((∃ o ∈ s.out, o.uid = p.uid) ∧ e'.metric < big)

/-- The record replaces the entry. -/
def Replaces (rte : RtableEnt) (prte : Option RtableEnt) : Prop :=
  ∀ e ∈ prte, e.seqnum < rte.seqnum ∨ (e.seqnum = rte.seqnum ∧ rte.metric < e.metric)

/-- The record asks for an update of its own. -/
def Triggers (rte : RtableEnt) : Option RtableEnt → Prop
  | none => rte.metric < big
  | some e => e.seqnum = rte.seqnum ∧ rte.metric ≠ e.lastAdvertisedMetric

/-- What replaces an entry has a metric of at most `BIG` and asks for no update in the past. What
does not replace it is about an unreachable destination, or no packet that starts anew waits. -/
def Acceptable (c : Setting) (t : RoutingTable) (r : UpdateRecord) : Prop :=
  r.dst = c.myaddr ∨
    let prte := t.find r.dst
    let rte := c.learned r prte
    (Replaces rte prte → rte.metric ≤ big ∧ (Triggers rte prte → c.now ≤ rte.advertiseOkAt)) ∧
    (¬Replaces rte prte → rte.metric ≠ big → ∀ e ∈ prte, ∀ l ∈ e.q,
      rte.metric ≤ big ∧ ∀ p ∈ l, p.fresh = false)

variable {c : Setting} {dst : ℤ} {p : DataPacket} {s s' : Router} {e : RtableEnt} {l : List DataPacket}

/-- The measure of the loop: how often a packet can be received. -/
def DataPacket.weight (p : DataPacket) : ℕ := (p.ttl + (2 ^ 32 - 1)) % 2 ^ 32

theorem accept_spec {p' : DataPacket} (h : p.accept = some p') :
    p'.uid = p.uid ∧ p'.fresh = p.fresh ∧ (p.fresh = false → p'.weight < p.weight) := by
  obtain ⟨uid, own, numForwards, ttl⟩ := p
  simp only [DataPacket.accept] at h
  cases own with
  | true =>
    simp only [if_true] at h
    split_ifs at h with hn
    obtain rfl := some.inj h
    simp [DataPacket.fresh, hn]
  | false =>
    simp only [Bool.false_eq_true, if_false] at h
    split_ifs at h with httl
    obtain rfl := some.inj h
    refine ⟨rfl, by simp only [DataPacket.fresh, Bool.false_and], fun _ => ?_⟩
    simp only [DataPacket.weight]
    omega

theorem exists_accept (h : p.fresh = true) : ∃ p', p.accept = some p' := by
  simp only [DataPacket.fresh, Bool.and_eq_true, decide_eq_true_eq] at h
  exact ⟨_, by rw [DataPacket.accept, if_pos h.1, if_pos h.2]⟩

/-- A packet leaves, or it is back in the queue of an unreachable destination. -/
theorem recv_cases (hfind : s.table.find dst = some e) (hq : e.q = some l)
    (hl : l.length < maxQueueLength) :
    ((e.metric ≠ big ∨ p.accept = none) ∧
      ∃ o : Output, o.uid = p.uid ∧ s.recv c dst p = { s with out := s.out ++ [o] }) ∨
    (e.metric = big ∧ ∃ p', p.accept = some p' ∧
      s.recv c dst p = { s with table := s.table.set dst { e with q := some (l ++ [p']) } }) := by
  rw [Router.recv]
  cases haccept : p.accept with
  | none => exact Or.inl ⟨Or.inr rfl, .dropped p.uid, rfl, rfl⟩
  | some p' =>
    simp only [Router.forwardPacket, hfind]
    by_cases hbig : e.metric = big
    · rw [if_neg (not_not.2 hbig)]
      refine Or.inr ⟨hbig, p', rfl, ?_⟩
      have hover : (l ++ [p']).length - maxQueueLength = 0 := by
        rw [length_append, length_singleton]
        omega
      rw [hq, getD_some, hover, drop_zero, take_zero, map_nil, append_nil]
    · rw [if_pos hbig]
      exact Or.inl ⟨Or.inl hbig, .sent p'.uid _, (accept_spec haccept).1, rfl⟩

theorem drain_cons (fuel : ℕ) (hfind : s.table.find dst = some e) (hq : e.q = some (p :: l)) :
    s.drain c dst (fuel + 1) =
      ({ s with table := s.table.set dst { e with q := some l } }.recv c dst p).drain c dst fuel := by
  rw [Router.drain, hfind]
  simp only [hq]

/-- The loop ends when nothing that starts anew comes back. -/
theorem exists_drain (hfind : s.table.find dst = some e) (hq : e.q = some l)
    (hl : l.length ≤ maxQueueLength) (hfresh : e.metric = big → ∀ p ∈ l, p.fresh = false) :
    ∃ fuel₀ s', (∀ fuel, fuel₀ ≤ fuel → s.drain c dst fuel = some s') ∧
      (∀ d ≠ dst, s'.table.find d = s.table.find d) ∧ s.out ⊆ s'.out ∧
      ∀ p ∈ l, ∃ o ∈ s'.out, o.uid = p.uid := by
  induction hm : (l.map fun p => p.weight + 1).sum using Nat.strong_induction_on generalizing s e l with
  | _ m ih =>
  cases l with
  | nil =>
    refine ⟨1, s, fun fuel hfuel => ?_, fun _ _ => rfl, Subset.refl _, by simp⟩
    obtain ⟨fuel, rfl⟩ := Nat.exists_eq_add_of_le' hfuel
    rw [Router.drain, hfind]
    simp only [hq]
  | cons p l =>
    subst hm
    simp only [forall_mem_cons] at hfresh ⊢
    have hfind' : (s.table.set dst { e with q := some l }).find dst = some { e with q := some l } :=
      OrdMap.find_set_self _ _ _
    rcases recv_cases (s := { s with table := s.table.set dst { e with q := some l } }) (c := c) (p := p) hfind' rfl
      (Nat.lt_of_succ_le hl) with ⟨-, o, ho, hrecv⟩ | ⟨hbig, p', haccept, hrecv⟩
    · obtain ⟨fuel₀, s', hs', htable, hout, huid⟩ := ih _ (by simp)
        (s := { table := s.table.set dst { e with q := some l }, out := s.out ++ [o] }) hfind' rfl
        (Nat.le_of_succ_le hl) (fun h => (hfresh h).2) rfl
      refine ⟨fuel₀ + 1, s', fun fuel hfuel => ?_, fun d hd => ?_, ?_, ⟨o, ?_, ho⟩, huid⟩
      · obtain ⟨fuel, rfl⟩ := Nat.exists_eq_add_of_le' (Nat.one_le_of_lt hfuel)
        rw [drain_cons fuel hfind hq, hrecv, hs' fuel (Nat.le_of_succ_le_succ hfuel)]
      · rw [htable d hd, OrdMap.find_set_of_ne hd]
      · exact fun x hx => hout (mem_append_left _ hx)
      · exact hout (mem_append_right _ (mem_singleton_self o))
    · obtain ⟨huid', hfresh', hweight⟩ := accept_spec haccept
      have hp := (hfresh hbig).1
      rw [hp] at hfresh'
      have hlt := hweight hp
      obtain ⟨fuel₀, s', hs', htable, hout, huid⟩ := ih _ (by simp; omega)
        (s := { s with table := s.table.set dst { e with q := some (l ++ [p']) } })
        (OrdMap.find_set_self _ _ _) rfl (by simpa using hl) (fun h x hx => by
          rcases mem_append.1 hx with hx | hx
          · exact (hfresh h).2 x hx
          · rwa [mem_singleton.1 hx]) rfl
      refine ⟨fuel₀ + 1, s', fun fuel hfuel => ?_, fun d hd => ?_, hout, huid' ▸ huid p' (by simp),
        fun x hx => huid x (by simp [hx])⟩
      · obtain ⟨fuel, rfl⟩ := Nat.exists_eq_add_of_le' (Nat.one_le_of_lt hfuel)
        rw [drain_cons fuel hfind hq, hrecv]
        simp only [OrdMap.set_set, hs' fuel (Nat.le_of_succ_le_succ hfuel)]
      · rw [htable d hd, OrdMap.find_set_of_ne hd]

theorem drain_none (hfind : s.table.find dst = some e) (hbig : e.metric = big) (hq : e.q = some l)
    (hl : l.length ≤ maxQueueLength) (hfresh : ∃ p ∈ l, p.fresh = true) (fuel : ℕ) :
    s.drain c dst fuel = none := by
  induction fuel generalizing s e l with
  | zero => rfl
  | succ fuel ih =>
    obtain ⟨x, hx, hfresh⟩ := hfresh
    cases l with
    | nil => cases hx
    | cons p l =>
      rw [drain_cons fuel hfind hq]
      rcases recv_cases (s := { s with table := s.table.set dst { e with q := some l } }) (c := c) (p := p)
        (OrdMap.find_set_self _ _ _) rfl (Nat.lt_of_succ_le hl) with
          ⟨hgone, o, -, hrecv⟩ | ⟨-, p', haccept, hrecv⟩
      · rw [hrecv]
        have haccept := hgone.resolve_left (not_not.2 hbig)
        have hne : x ≠ p := by
          rintro rfl
          obtain ⟨p', hp'⟩ := exists_accept hfresh
          rw [hp'] at haccept
          cases haccept
        exact ih (OrdMap.find_set_self _ _ _) hbig rfl (Nat.le_of_succ_le hl)
          ⟨x, (mem_cons.1 hx).resolve_left hne, hfresh⟩
      · rw [hrecv]
        refine ih (OrdMap.find_set_self _ _ _) hbig rfl (by simpa using hl) ?_
        rcases mem_cons.1 hx with rfl | hx
        · exact ⟨p', by simp, (accept_spec haccept).2.1.trans hfresh⟩
        · exact ⟨x, by simp [hx], hfresh⟩

variable {r : UpdateRecord} {t : RoutingTable}

theorem judge_of_replaces (h : Replaces (c.learned r (t.find r.dst)) (t.find r.dst)) :
    ∃ (rte : RtableEnt) (trigger : Bool), c.judge r t = c.install r.dst rte trigger t ∧
      rte.metric = (c.learned r (t.find r.dst)).metric ∧ rte.q = (c.learned r (t.find r.dst)).q ∧
      rte.advertiseOkAt = (c.learned r (t.find r.dst)).advertiseOkAt ∧
      (trigger = true ↔ Triggers (c.learned r (t.find r.dst)) (t.find r.dst)) := by
  rw [Setting.judge]
  generalize c.learned r (t.find r.dst) = rte at h ⊢
  cases hfind : t.find r.dst with
  | none =>
    refine ⟨_, _, rfl, rfl, rfl, rfl, ?_⟩
    simp [Triggers]
  | some e =>
    rw [hfind] at h
    rcases h e rfl with hlt | ⟨heq, hlt⟩
    · simp only [if_neg hlt.ne, if_pos hlt]
      refine ⟨_, _, rfl, rfl, rfl, rfl, ?_⟩
      simp [Triggers, hlt.ne]
    · simp only [if_pos heq, if_pos hlt]
      refine ⟨_, _, rfl, rfl, rfl, rfl, ?_⟩
      simp [Triggers, heq]

theorem judge_of_not_replaces (h : ¬Replaces (c.learned r (t.find r.dst)) (t.find r.dst)) :
    ∃ t' e e', c.judge r t = some (c.learned r (t.find r.dst), t') ∧
      (∀ d ≠ r.dst, t'.find d = t.find d) ∧ t.find r.dst = some e ∧ t'.find r.dst = some e' ∧
      e'.metric = e.metric ∧ e'.q = e.q ∧ (c.learned r (t.find r.dst)).q = e.q := by
  have hq : ∀ e, t.find r.dst = some e → (c.learned r (t.find r.dst)).q = e.q := by
    intro e he
    rw [he]
    rfl
  rw [Setting.judge]
  generalize c.learned r (t.find r.dst) = rte at h hq ⊢
  cases hfind : t.find r.dst with
  | none => simp [Replaces, hfind] at h
  | some e =>
    simp only [Replaces, hfind, mem_some_iff, forall_eq', not_or, not_and] at h
    by_cases heq : e.seqnum = rte.seqnum
    · simp only [if_pos heq, if_neg (h.2 heq)]
      exact ⟨t, e, e, rfl, fun _ _ => rfl, rfl, hfind, rfl, rfl, hq e hfind⟩
    · simp only [if_neg heq, if_neg h.1]
      split_ifs
      · exact ⟨_, e, _, rfl, fun d hd => OrdMap.find_set_of_ne hd _ _, rfl, OrdMap.find_set_self _ _ _,
          rfl, rfl, hq e hfind⟩
      · exact ⟨t, e, e, rfl, fun _ _ => rfl, rfl, hfind, rfl, rfl, hq e hfind⟩

theorem learned_q (h : t.find r.dst = some e) : (c.learned r (t.find r.dst)).q = e.q := by
  rw [h]
  rfl

/-- What the decision leaves is drained, or it is kept. -/
theorem processRecord_of_judge {rte e' : RtableEnt} (hown : r.dst ≠ c.myaddr)
    (hjudge : c.judge r s.table = some (rte, t)) (hframe : ∀ d ≠ r.dst, t.find d = s.table.find d)
    (hfind : t.find r.dst = some e') (hq : e'.q = rte.q) (hold : ∀ e ∈ s.table.find r.dst, e.q = rte.q)
    (hlen : ∀ l ∈ rte.q, l.length ≤ maxQueueLength)
    (hok : rte.metric ≠ big → ∀ l ∈ rte.q,
      rte.metric ≤ big ∧ (e'.metric = big → ∀ p ∈ l, p.fresh = false)) :
    ∃ fuel₀ s', (∀ fuel, fuel₀ ≤ fuel → s.processRecord c fuel r = some s') ∧
      (∀ d ≠ r.dst, s'.table.find d = s.table.find d) ∧ s.out ⊆ s'.out ∧ KeptAt s.table s' r.dst := by
  have hrecord : ∀ fuel, s.processRecord c fuel r =
      if rte.q.isSome ∧ rte.metric ≠ big then
        (Router.drain c r.dst fuel { s with table := t }).bind fun s =>
          if big < rte.metric then none
          else some { s with table := s.table.set r.dst { rte with q := none } }
      else some { s with table := t } := by
    intro fuel
    rw [Router.processRecord, if_neg hown, hjudge, bind_some]
  by_cases hdrain : rte.q.isSome ∧ rte.metric ≠ big
  · obtain ⟨l, hl⟩ := isSome_iff_exists.1 hdrain.1
    obtain ⟨hle, hfresh⟩ := hok hdrain.2 l hl
    obtain ⟨fuel₀, s', hs', htable, hout, huid⟩ :=
      exists_drain (s := { s with table := t }) (c := c) hfind (hq.trans hl) (hlen l hl) hfresh
    refine ⟨fuel₀, { s' with table := s'.table.set r.dst { rte with q := none } },
      fun fuel hfuel => ?_, fun d hd => ?_, hout, fun e he l' hl' p hp => ?_⟩
    · rw [hrecord, if_pos hdrain, hs' fuel hfuel, bind_some, if_neg (not_lt.2 hle)]
    · rw [OrdMap.find_set_of_ne hd, htable d hd, hframe d hd]
    · obtain rfl := some.inj ((hold e he ▸ hl').symm.trans hl)
      exact ⟨_, OrdMap.find_set_self _ _ _, Or.inr ⟨huid p hp, lt_of_le_of_ne hle hdrain.2⟩⟩
  · refine ⟨0, { s with table := t }, fun fuel _ => ?_, hframe, Subset.refl _,
      fun e he l hl p hp => ?_⟩
    · rw [hrecord, if_neg hdrain]
    · exact ⟨e', hfind, Or.inl ⟨l, hq.trans (hold e he ▸ hl), p, hp, rfl⟩⟩

theorem exists_processRecord (ht : BufferedAt s.table r.dst) (h : Acceptable c s.table r) :
    ∃ fuel₀ s', (∀ fuel, fuel₀ ≤ fuel → s.processRecord c fuel r = some s') ∧
      (∀ d ≠ r.dst, s'.table.find d = s.table.find d) ∧ s.out ⊆ s'.out ∧ KeptAt s.table s' r.dst := by
  by_cases hown : r.dst = c.myaddr
  · refine ⟨0, s, fun fuel _ => ?_, fun _ _ => rfl, Subset.refl _, fun e he l hl p hp => ?_⟩
    · rw [Router.processRecord, if_pos hown]
    · exact ⟨e, he, Or.inl ⟨l, hl, p, hp, rfl⟩⟩
  obtain ⟨hreplaces, hstale⟩ := h.resolve_left hown
  have hlen : ∀ l ∈ (c.learned r (s.table.find r.dst)).q, l.length ≤ maxQueueLength := by
    intro l hl
    cases he : s.table.find r.dst with
    | none =>
      rw [he] at hl
      cases hl
    | some e => exact (ht e he l (learned_q he ▸ hl)).2
  by_cases h : Replaces (c.learned r (s.table.find r.dst)) (s.table.find r.dst)
  · obtain ⟨rte, trigger, hjudge, hmetric, hq, hat, htrigger⟩ := judge_of_replaces h
    obtain ⟨hle, hnow⟩ := hreplaces h
    rw [Setting.install, if_neg] at hjudge
    · refine processRecord_of_judge hown hjudge (fun d hd => OrdMap.find_set_of_ne hd _ _)
        (OrdMap.find_set_self _ _ _) rfl (fun e he => (learned_q he).symm.trans hq.symm)
        (hq ▸ hlen) fun hne _ _ => ⟨hmetric ▸ hle, fun hbig => (hne hbig).elim⟩
    · rintro (hlt | ⟨htrue, hlt⟩)
      · exact hlt.not_ge (hmetric ▸ hle)
      · exact hlt.not_ge (hat ▸ hnow (htrigger.1 htrue))
  · obtain ⟨t', e, e', hjudge, hframe, hfind, hfind', hmetric, hq', hq⟩ := judge_of_not_replaces h
    refine processRecord_of_judge hown hjudge hframe hfind' (hq'.trans hq.symm)
      (fun e he => (learned_q he).symm) hlen fun hne l hl => ?_
    obtain ⟨hle, hfresh⟩ := hstale h hne e hfind l (hq ▸ hl)
    exact ⟨hle, fun _ => hfresh⟩

theorem acceptable_of_processRecord {fuel : ℕ} (ht : BufferedAt s.table r.dst)
    (h : s.processRecord c fuel r = some s') : Acceptable c s.table r := by
  by_cases hown : r.dst = c.myaddr
  · exact Or.inl hown
  rw [Router.processRecord, if_neg hown] at h
  refine Or.inr ⟨fun hreplaces => ?_, fun hstale hne e he l hl => ?_⟩
  · obtain ⟨rte, trigger, hjudge, hmetric, -, hat, htrigger⟩ := judge_of_replaces hreplaces
    rw [hjudge, Setting.install] at h
    split_ifs at h with hfails
    · cases h
    · rw [not_or, not_lt, not_and, not_lt] at hfails
      exact ⟨hmetric ▸ hfails.1, fun ht => hat ▸ hfails.2 (htrigger.2 ht)⟩
  · obtain ⟨t', e₁, e', hjudge, -, hfind, hfind', hmetric, hq', hq⟩ := judge_of_not_replaces hstale
    obtain rfl := some.inj (hfind.symm.trans he)
    obtain ⟨hbig, hlen⟩ := ht _ he l hl
    rw [hjudge, bind_some] at h
    simp only [hq, mem_def.1 hl, isSome_some, true_and, if_pos hne] at h
    refine ⟨not_lt.1 fun hlt => ?_, fun p hp => Bool.eq_false_iff.2 fun hfresh => ?_⟩
    · simp [hlt] at h
    · rw [drain_none (s := { s with table := t' }) hfind' (hmetric.trans hbig) (hq'.trans hl) hlen
        ⟨p, hp, hfresh⟩] at h
      cases h

theorem bufferedAt_congr (h : t'.find d = t.find d) (ht : BufferedAt t d) : BufferedAt t' d := by
  rwa [BufferedAt, h]

theorem acceptable_congr (h : t'.find r.dst = t.find r.dst) :
    Acceptable c t' r ↔ Acceptable c t r := by
  rw [Acceptable, Acceptable, h]

theorem KeptAt.mono (h : KeptAt t s d) (hfind : s'.table.find d = s.table.find d)
    (hout : s.out ⊆ s'.out) : KeptAt t s' d := by
  intro e he l hl p hp
  obtain ⟨e', he', hkept⟩ := h e he l hl p hp
  exact ⟨e', hfind ▸ he', hkept.imp_right (And.imp_left fun ⟨o, ho, huid⟩ => ⟨o, hout ho, huid⟩)⟩

theorem keptAt_self (s : Router) (d : ℤ) : KeptAt s.table s d :=
  fun e he l hl p hp => ⟨e, he, Or.inl ⟨l, hl, p, hp, rfl⟩⟩

variable {rs : List UpdateRecord}

/-- A record is about one destination, and the update has no other about it. -/
theorem exists_records (hrs : (rs.map (·.dst)).Nodup) (ht : ∀ d, BufferedAt s.table d)
    (h : ∀ r ∈ rs, Acceptable c s.table r) :
    ∃ fuel₀ s', (∀ fuel, fuel₀ ≤ fuel → rs.foldlM (Router.processRecord c fuel) s = some s') ∧
      s.out ⊆ s'.out ∧ ∀ d, KeptAt s.table s' d := by
  suffices ∃ fuel₀ s', (∀ fuel, fuel₀ ≤ fuel → rs.foldlM (Router.processRecord c fuel) s = some s') ∧
      (∀ d ∉ rs.map (·.dst), s'.table.find d = s.table.find d) ∧ s.out ⊆ s'.out ∧
      ∀ d ∈ rs.map (·.dst), KeptAt s.table s' d by
    obtain ⟨fuel₀, s', hs', hframe, hout, hmem⟩ := this
    refine ⟨fuel₀, s', hs', hout, fun d => ?_⟩
    by_cases hd : d ∈ rs.map (·.dst)
    · exact hmem d hd
    · exact (keptAt_self s d).mono (hframe d hd) hout
  replace ht : ∀ d ∈ rs.map (·.dst), BufferedAt s.table d := fun d _ => ht d
  induction rs generalizing s with
  | nil => exact ⟨0, s, fun _ _ => rfl, fun _ _ => rfl, Subset.refl _, by simp⟩
  | cons r rs ih =>
    simp only [map_cons, nodup_cons, forall_mem_cons] at hrs ht h ⊢
    obtain ⟨fuel₁, s₁, hs₁, hframe₁, hout₁, hkept₁⟩ := exists_processRecord ht.1 h.1
    have hne : ∀ d ∈ rs.map (·.dst), d ≠ r.dst := fun d hd => ne_of_mem_of_not_mem hd hrs.1
    obtain ⟨fuel₂, s', hs', hframe, hout, hkept⟩ := ih hrs.2
      (fun r' hr' => (acceptable_congr (hframe₁ _ (hne _ (mem_map_of_mem hr')))).2 (h.2 r' hr'))
      (fun d hd => bufferedAt_congr (hframe₁ d (hne d hd)) (ht.2 d hd))
    refine ⟨max fuel₁ fuel₂, s', fun fuel hfuel => ?_, fun d hd => ?_, fun o ho => hout (hout₁ ho),
      hkept₁.mono (hframe r.dst hrs.1) hout, fun d hd => ?_⟩
    · rw [foldlM_cons, hs₁ fuel (le_of_max_le_left hfuel)]
      exact hs' fuel (le_of_max_le_right hfuel)
    · rw [mem_cons, not_or] at hd
      rw [hframe d hd.2, hframe₁ d hd.1]
    · have := hkept d hd
      rwa [KeptAt, hframe₁ d (hne d hd)] at this

theorem acceptable_of_records {fuel₁ : ℕ} (hrs : (rs.map (·.dst)).Nodup)
    (ht : ∀ d ∈ rs.map (·.dst), BufferedAt s.table d)
    (h : ∀ fuel, fuel₁ ≤ fuel → (rs.foldlM (Router.processRecord c fuel) s).isSome) :
    ∀ r ∈ rs, Acceptable c s.table r := by
  induction rs generalizing s fuel₁ with
  | nil => simp
  | cons r rs ih =>
    simp only [map_cons, nodup_cons, forall_mem_cons, foldlM_cons] at hrs ht h ⊢
    obtain ⟨_, hsome⟩ := isSome_iff_exists.1 (h fuel₁ le_rfl)
    obtain ⟨_, hsome, -⟩ := bind_eq_some_iff.1 hsome
    have hr := acceptable_of_processRecord ht.1 hsome
    obtain ⟨fuel₀, s₁, hs₁, hframe, -⟩ := exists_processRecord ht.1 hr
    have hne : ∀ d ∈ rs.map (·.dst), d ≠ r.dst := fun d hd => ne_of_mem_of_not_mem hd hrs.1
    refine ⟨hr, fun r' hr' => (acceptable_congr (hframe _ (hne _ (mem_map_of_mem hr')))).1 ?_⟩
    refine ih hrs.2 (fun d hd => bufferedAt_congr (hframe d (hne d hd)) (ht.2 d hd))
      (fun fuel (hfuel : max fuel₀ fuel₁ ≤ fuel) => ?_) r' hr'
    have := h fuel (le_of_max_le_right hfuel)
    rwa [hs₁ fuel (le_of_max_le_left hfuel)] at this

theorem keptAt_greet (h : KeptAt t s d) : KeptAt t (s.greet c) d := by
  rw [Router.greet]
  split
  · exact h
  · next hnone =>
    intro e he l hl p hp
    obtain ⟨e', he', hkept⟩ := h e he l hl p hp
    have hd : d ≠ c.src := by
      rintro rfl
      rw [hnone] at he'
      cases he'
    exact ⟨e', (OrdMap.find_set_of_ne hd _ _).trans he', hkept⟩

/-- An update with one record for a destination is done with, and no packet is lost, exactly when all
the records can be accepted. -/
theorem processUpdate_iff (ht : ∀ d, BufferedAt t d) (hrs : (rs.map (·.dst)).Nodup) :
    (∃ fuel₀ s', (∀ fuel, fuel₀ ≤ fuel → processUpdate c fuel rs t = some s') ∧ ∀ d, KeptAt t s' d) ↔
      ∀ r ∈ rs, Acceptable c t r := by
  constructor
  · rintro ⟨fuel₀, s', hs', -⟩
    refine acceptable_of_records (s := ⟨t, []⟩) hrs (fun d _ => ht d) fun fuel (hfuel : fuel₀ ≤ fuel) => ?_
    rw [← isSome_map (f := Router.greet c)]
    exact isSome_iff_exists.2 ⟨s', hs' fuel hfuel⟩
  · intro h
    obtain ⟨fuel₀, s', hs', -, hkept⟩ := exists_records (s := ⟨t, []⟩) hrs ht h
    refine ⟨fuel₀, s'.greet c, fun fuel hfuel => ?_, fun d => keptAt_greet (hkept d)⟩
    rw [processUpdate, hs' fuel hfuel, map_some]

/-- One packet of the node itself waits for the destination 2, which was lost. -/
def lostTable : RoutingTable :=
  OrdMap.empty.set 2 { RtableEnt.zero with
    hop := 2
    metric := big
    seqnum := 5
    q := some [⟨1, true, 0, 32⟩] }

theorem bufferedAt_lostTable (d : ℤ) : BufferedAt lostTable d := by
  intro e he l hl
  rw [lostTable, OrdMap.find_set] at he
  split_ifs at he
  · obtain rfl := some.inj he
    obtain rfl := some.inj hl
    exact ⟨rfl, by decide⟩
  · cases he

/-- The setting of the node 1 that hears the node 3. -/
def heard : Setting := ⟨0, 1, 7 / 8, 6, 3⟩

theorem processUpdate_fresh : ∃ fuel₀ s', (∀ fuel, fuel₀ ≤ fuel →
    processUpdate heard fuel [⟨2, 1, 6⟩] lostTable = some s') ∧ ∀ d, KeptAt lostTable s' d := by
  refine (processUpdate_iff bufferedAt_lostTable (by decide)).2 ?_
  rw [forall_mem_singleton]
  refine Or.inr ⟨fun _ => ⟨by decide, fun h => ?_⟩, fun h => (h fun e he => ?_).elim⟩
  · exact absurd h.1 (by decide)
  · obtain rfl := some.inj he
    exact Or.inl (by decide)

/-- With an older sequence number the packet is queued again, for ever. -/
theorem not_processUpdate : (∀ d, BufferedAt lostTable d) ∧
    ∀ fuel, processUpdate heard fuel [⟨2, 1, 4⟩] lostTable = none := by
  refine ⟨bufferedAt_lostTable, fun fuel => ?_⟩
  cases h : Router.processRecord heard fuel ⟨lostTable, []⟩ ⟨2, 1, 4⟩ with
  | none => rw [processUpdate, foldlM_cons, h]; rfl
  | some s' =>
    have hacc := (acceptable_of_processRecord (bufferedAt_lostTable _) h).resolve_left (by decide)
    have hstale := hacc.2 (fun hr => ?_) (by decide) _ rfl _ rfl
    · exact absurd (hstale.2 _ (mem_singleton_self _)) (by decide)
    · rcases hr _ rfl with h | h
      · exact absurd h (by decide)
      · exact absurd h.1 (by decide)

end Ns2.Dsdv
