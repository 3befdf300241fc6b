import Ns2.Aodv.Handlers

/-! The entries of the route table of an AODV node: when every event keeps the hop count of an entry finite
exactly while it is up, and no assertion fails. -/

namespace Ns2.Aodv

open List

namespace Route

/-- The hop count is finite exactly when the entry is up, and then the sequence number is even. -/
def Ok (r : Route) : Prop := (r.hops ≠ infinity2 ↔ r.flags = .up) ∧ (r.flags = .up → r.seqno % 2 = 0)

instance (r : Route) : Decidable r.Ok := inferInstanceAs (Decidable (_ ∧ _))

variable {r : Route}

theorem ok_new (d : ℤ) : (new d).Ok := ⟨iff_of_false (by simp [new]) (by simp [new]), by simp [new]⟩

theorem Ok.even (h : r.Ok) (hhops : r.hops ≠ infinity2) : r.seqno % 2 = 0 := h.2 (h.1.1 hhops)

theorem ok_down (h : r.flags = .down → r.hops = infinity2) : r.down.Ok := by
  rw [down]
  split_ifs with hdown
  · exact ⟨iff_of_false (not_not.2 (h hdown)) (by rw [hdown]; exact RtFlags.noConfusion),
      fun hup => by rw [hdown] at hup; cases hup⟩
  · exact ⟨iff_of_false (not_not.2 rfl) RtFlags.noConfusion, fun hup => by cases hup⟩

theorem Ok.hops_of_down (h : r.Ok) (hdown : r.flags = .down) : r.hops = infinity2 := by
  by_contra hhops
  rw [h.1.1 hhops] at hdown
  cases hdown

theorem Ok.lose (h : r.Ok) (m : ℕ) (id : ℤ) : (r.lose m id).Ok := by
  rw [Route.lose]
  split_ifs
  · exact ok_down h.hops_of_down
  · exact h

theorem Ok.fail (h : r.Ok) (saddr : ℤ) (n : ℕ) : (r.fail saddr n).Ok := by
  rw [Route.fail]
  split_ifs
  · exact ok_down h.hops_of_down
  · exact h

theorem Ok.giveUp (h : r.Ok) : r.giveUp.Ok := by
  rw [Route.giveUp]
  split_ifs
  · exact ok_down h.hops_of_down
  · exact h

theorem ok_update_iff (r : Route) (seqnum metric : ℕ) (nexthop : ℤ) :
    (r.update seqnum metric nexthop).Ok ↔ metric ≠ infinity2 ∧ seqnum % 2 = 0 :=
  and_congr (iff_true_right rfl) (imp_iff_right rfl)

theorem ok_inRepair_iff (r : Route) : Ok { r with flags := .inRepair } ↔ r.hops = infinity2 := by
  refine (and_iff_left fun hup => by cases hup).trans ?_
  exact (iff_false_right (by exact RtFlags.noConfusion)).trans not_not

end Route

/-- The entries are as they should be, one for each destination. -/
structure Entries (l : List Route) : Prop where
  ok : ∀ r ∈ l, r.Ok
  nodup : (l.map Route.dst).Nodup

namespace Entries

variable {l : List Route} {d : ℤ} {f : Route → Route}

theorem live (h : Entries l) : Live l := fun r hr hhops => ⟨(h.ok r hr).1.1 hhops, (h.ok r hr).even hhops⟩

theorem ensureRoute (h : Entries l) (d : ℤ) : Entries (ensureRoute d l) := by
  rw [Aodv.ensureRoute]
  split_ifs with hsome
  · exact h
  · have hd : ∀ r ∈ l, r.dst ≠ d :=
      findKey_eq_none.1 (Option.not_isSome_iff_eq_none.1 hsome)
    refine ⟨forall_mem_cons.2 ⟨Route.ok_new d, h.ok⟩, nodup_cons.2 ⟨fun hmem => ?_, h.nodup⟩⟩
    obtain ⟨r, hr, heq⟩ := mem_map.1 hmem
    exact hd r hr heq

section

variable (h : Entries l) (hdst : ∀ r, (f r).dst = r.dst)
include h hdst

theorem map (hf : ∀ r, r.Ok → (f r).Ok) :
    Entries (l.map f) := by
  refine ⟨fun r hr => ?_, ?_⟩
  · obtain ⟨a, ha, rfl⟩ := mem_map.1 hr
    exact hf a (h.ok a ha)
  · have hkeys : (l.map f).map Route.dst = l.map Route.dst :=
      (map_map ..).trans (map_congr_left fun r _ => hdst r)
    exact hkeys ▸ h.nodup

theorem updateKey_iff :
    Entries (updateKey Route.dst d f l) ↔ ∀ r, findKey Route.dst d l = some r → (f r).Ok := by
  have hkeys : (updateKey Route.dst d f l).map Route.dst = l.map Route.dst :=
    map_updateKey fun r hr => (hdst r).trans hr
  constructor
  · intro hl r hr
    refine hl.ok (f r) (mem_of_findKey (?_ : findKey Route.dst d _ = some _)).1
    rw [findKey_updateKey fun r hr => (hdst r).trans hr, if_pos rfl, hr]
    rfl
  · refine fun hf => ⟨fun r hr => ?_, hkeys ▸ h.nodup⟩
    rcases of_mem_updateKey hr with hr | ⟨a, ha, rfl, rfl⟩
    · exact h.ok r hr
    · exact hf a (findKey_of_mem h.nodup ha)

theorem updateKey (hf : ∀ r, r.Ok → (f r).Ok) :
    Entries (updateKey Route.dst d f l) :=
  (h.updateKey_iff hdst).2 fun r hr => hf r (h.ok r (mem_of_findKey hr).1)

end

end Entries

namespace AodvAgent

variable {m : ℕ} {s s' : AodvAgent} {now : ℚ} {out : List Sent}
variable {e : ℚ × AodvEvent} {p : AodvPacket}

/-- An entry has a finite hop count exactly when it is up, an entry that is up has an even sequence number,
and no destination has two entries. -/
structure Consistent (s : AodvAgent) : Prop where
  hops : ∀ rt ∈ s.rtable, rt.hops ≠ infinity2 ↔ rt.flags = .up
  even : ∀ rt ∈ s.rtable, rt.flags = .up → rt.seqno % 2 = 0
  nodup : (s.rtable.map RtEntry.dst).Nodup

theorem consistent_iff : s.Consistent ↔ Entries s.routes := by
  have hdst : s.routes.map Route.dst = s.rtable.map RtEntry.dst := by
    rw [routes, map_map]
    rfl
  constructor
  · refine fun h => ⟨fun r hr => ?_, hdst ▸ h.nodup⟩
    obtain ⟨rt, hrt, rfl⟩ := mem_map.1 hr
    exact ⟨h.hops rt hrt, h.even rt hrt⟩
  · exact fun h => ⟨fun rt hrt => (h.ok _ (mem_routes_of_mem hrt)).1,
      fun rt hrt => (h.ok _ (mem_routes_of_mem hrt)).2, hdst ▸ h.nodup⟩

/-- The event keeps the entries as they should be; no assertion fails, and no route error holds more than
its array. -/
def KeepsConsistent (m : ℕ) (s : AodvAgent) (e : ℚ × AodvEvent) : Prop :=
  ∃ s' out, (aodvMachine m).step s e = some (s', out) ∧ s'.Consistent

/-- A reply that has been taken is passed on to all neighbours, over a route to the broadcast address. -/
def Scatters (s : AodvAgent) (daddr ttl : ℤ) (rp : RouteReply) : Prop :=
  daddr = ipBroadcast ∧ daddr ≠ s.index ∧ daddr ≠ s.here ∧ ttl ≠ 0 ∧
    (rp.dst = daddr ∨ (s.routeTo daddr).hops ≠ infinity2)

/-- A route that is taken from a message has a finite hop count and an even sequence number, no local repair
is tried of a route with a finite hop count, and no more routes are lost with a neighbour than a route
error holds. -/
def Meets (s : AodvAgent) (e : ℚ × AodvEvent) : Prop :=
  match e.2 with
  | .recvAODV p => match p.msg with
    | .request rq => s.New rq → (s.routeTo rq.src).Fresher rq.srcSeqno rq.hopCount →
        rq.hopCount ≠ infinity2 ∧ rq.srcSeqno % 2 = 0
    | .reply rp => (s.routeTo rp.dst).Fresher rp.dstSeqno rp.hopCount →
        rp.hopCount ≠ infinity2 ∧ rp.dstSeqno % 2 = 0 ∧ ¬s.Scatters p.daddr (p.ttl - 1) rp
    | _ => True
  | .rtLlFailed isData p => isData = true → p.daddr ≠ ipBroadcast → ∀ rt, s.rtLookup p.daddr = some rt →
      if (rt.hops : ℤ) < p.numForwards then rt.hops = infinity2
      else (s.through p.nextHop).length ≤ aodvMaxErrors
  | .nbPurge => ∀ nb ∈ s.nblist, nb.expire ≤ e.1 → (s.through nb.addr).length ≤ aodvMaxErrors
  | _ => True

/-- What holds in every state besides. -/
structure Sane (s : AodvAgent) : Prop where
  even : s.seqno % 2 = 0
  queue : ∀ p ∈ s.rqueue, p.daddr ≠ ipBroadcast

theorem Sane.acts {l : List Route} (h : s.Sane) (hacts : Acts m s s' l) : s'.Sane :=
  ⟨hacts.parity h.even, hacts.queue h.queue⟩

/-- An event with a known outcome keeps the entries when the routes that are left are as they should be. -/
theorem keepsConsistent_iff {l : List Route}
    (hsome : ∃ s' out, (aodvMachine m).step s e = some (s', out))
    (hroutes : ∀ s' out, (aodvMachine m).step s e = some (s', out) → s'.routes = l) :
    KeepsConsistent m s e ↔ Entries l := by
  constructor
  · rintro ⟨s', out, hstep, hs'⟩
    exact hroutes s' out hstep ▸ consistent_iff.1 hs'
  · intro hl
    obtain ⟨s', out, hstep⟩ := hsome
    exact ⟨s', out, hstep, consistent_iff.2 (hroutes s' out hstep ▸ hl)⟩

theorem entries_received_iff (h : Entries s.routes) (d : ℤ) (seqnum metric : ℕ) (nexthop : ℤ) :
    Entries (s.received d seqnum metric nexthop) ↔
      ((s.routeTo d).Fresher seqnum metric → metric ≠ infinity2 ∧ seqnum % 2 = 0) := by
  by_cases hfresh : (s.routeTo d).Fresher seqnum metric
  · rw [received_of_fresher hfresh, (h.ensureRoute d).updateKey_iff (Route.update_dst seqnum metric nexthop), imp_iff_right hfresh]
    constructor
    · exact fun hall => (Route.ok_update_iff ..).1 (hall _ (findKey_ensureRoute s d))
    · exact fun hok r _ => (Route.ok_update_iff ..).2 hok
  · rw [received_of_not_fresher hfresh]
    exact iff_of_true (h.ensureRoute d) fun hf => absurd hf hfresh

theorem finite_received_iff {d b : ℤ} {seqnum metric : ℕ} (nexthop : ℤ)
    (hfresh : (s.routeTo d).Fresher seqnum metric) (hmetric : metric ≠ infinity2) :
    (∃ r, findKey Route.dst b (s.received d seqnum metric nexthop) = some r ∧ r.hops ≠ infinity2) ↔
      d = b ∨ (s.routeTo b).hops ≠ infinity2 := by
  rw [received_of_fresher hfresh, findKey_updateKey (by exact fun _ h => h)]
  by_cases hb : b = d
  · rw [if_pos hb, findKey_ensureRoute]
    exact iff_of_true ⟨_, rfl, hmetric⟩ (Or.inl hb.symm)
  · rw [if_neg hb, findKey_ensureRoute_ne hb, or_iff_right (Ne.symm hb), routeTo]
    cases findKey Route.dst b s.routes with
    | none => exact iff_of_false (by simp) fun hne => hne rfl
    | some r => simp

theorem recvRequest_iff (hm : 2 ∣ m) (h : Entries s.routes) (hs : s.Sane) {rq : RouteRequest}
    (hp : p.msg = .request rq) :
    KeepsConsistent m s (now, .recvAODV p) ↔ s.Meets (now, .recvAODV p) := by
  have hstep : (aodvMachine m).step s (now, .recvAODV p) = s.recvRequest m now p.saddr (p.ttl - 1) rq := by
    change s.recvAODV m now p = _
    rw [recvAODV, hp]
  have hmeets : s.Meets (now, .recvAODV p) ↔ (s.New rq → (s.routeTo rq.src).Fresher rq.srcSeqno rq.hopCount →
      rq.hopCount ≠ infinity2 ∧ rq.srcSeqno % 2 = 0) := by
    rw [Meets]
    dsimp only
    rw [hp]
  rw [hmeets]
  by_cases hnew : s.New rq
  · rw [imp_iff_right hnew, ← entries_received_iff h rq.src rq.srcSeqno rq.hopCount p.saddr]
    constructor
    · rintro ⟨s', out, hs', hcons⟩
      rw [hstep] at hs'
      rw [← (acts_recvRequest hm hnew hs').1.routes]
      exact consistent_iff.1 hcons
    · intro hl
      have hhops := fun hfresh => ((entries_received_iff h rq.src rq.srcSeqno rq.hopCount p.saddr).1 hl hfresh).1
      obtain ⟨s', out, hs'⟩ := exists_recvRequest m now p.saddr (p.ttl - 1) hs.queue fun _ => hhops
      refine ⟨s', out, hstep.trans hs', consistent_iff.2 ?_⟩
      rw [(acts_recvRequest hm hnew hs').1.routes]
      exact hl
  · refine iff_of_true ⟨s, [], ?_, consistent_iff.2 h⟩ fun hn => absurd hn hnew
    rw [hstep, recvRequest_of_not_new hnew]

theorem recvReply_iff (h : Entries s.routes) (hs : s.Sane) {rp : RouteReply}
    (hp : p.msg = .reply rp) :
    KeepsConsistent m s (now, .recvAODV p) ↔ s.Meets (now, .recvAODV p) := by
  have hstep : (aodvMachine m).step s (now, .recvAODV p) = s.recvReply now p.daddr (p.ttl - 1) rp := by
    change s.recvAODV m now p = _
    rw [recvAODV, hp]
  have hmeets : s.Meets (now, .recvAODV p) ↔ ((s.routeTo rp.dst).Fresher rp.dstSeqno rp.hopCount →
      rp.hopCount ≠ infinity2 ∧ rp.dstSeqno % 2 = 0 ∧ ¬s.Scatters p.daddr (p.ttl - 1) rp) := by
    rw [Meets]
    dsimp only
    rw [hp]
  have hentries := entries_received_iff h rp.dst rp.dstSeqno rp.hopCount rp.src
  rw [hmeets]
  by_cases hfresh : (s.routeTo rp.dst).Fresher rp.dstSeqno rp.hopCount
  · rw [imp_iff_right hfresh] at hentries ⊢
    rw [← and_assoc, ← hentries]
    have hkeeps : KeepsConsistent m s (now, .recvAODV p) ↔
        Entries (s.received rp.dst rp.dstSeqno rp.hopCount rp.src) ∧
          ∃ s' out, s.recvReply now p.daddr (p.ttl - 1) rp = some (s', out) := by
      constructor
      · rintro ⟨s', out, hs', hcons⟩
        rw [hstep] at hs'
        rw [← (acts_recvReply (m := m) hs').1.routes]
        exact ⟨consistent_iff.1 hcons, s', out, hs'⟩
      · rintro ⟨hl, s', out, hs'⟩
        refine ⟨s', out, hstep.trans hs', consistent_iff.2 ?_⟩
        rw [(acts_recvReply (m := m) hs').1.routes]
        exact hl
    rw [hkeeps]
    refine and_congr_right fun hl => ?_
    have hhops := (hentries.1 hl).1
    rw [exists_recvReply_iff hs.queue hfresh, Scatters,
      ← finite_received_iff rp.src hfresh hhops]
    constructor
    · rintro hall ⟨hcast, hindex, hhere, httl, r, hr, hfin⟩
      rcases (hall.resolve_left hindex r hr hfin).2 with hz | heq | hne
      · exact httl hz
      · exact hhere heq
      · exact hne hcast
    · refine fun hnot => or_iff_not_imp_left.2 fun hindex r hr hfin => ⟨?_, ?_⟩
      · exact (hl.ok r (mem_of_findKey hr).1).1.1 hfin
      · by_contra hcast
        obtain ⟨httl, hhere, hcast⟩ : ¬p.ttl - 1 = 0 ∧ ¬p.daddr = s.here ∧ ¬p.daddr ≠ ipBroadcast := by
          simpa only [not_or] using hcast
        exact hnot ⟨not_not.1 hcast, hindex, hhere, httl, r, hr, hfin⟩
  · refine iff_of_true ⟨s.rtEnsure rp.dst, [], ?_, consistent_iff.2 ?_⟩ fun hf => absurd hf hfresh
    · rw [hstep, recvReply_of_not_fresher hfresh]
    · rw [routes_rtEnsure]
      exact h.ensureRoute rp.dst

theorem keeps_of_exists (hmeets : s.Meets e)
    (hsome : ∃ s' out, (aodvMachine m).step s e = some (s', out) ∧ Entries s'.routes) :
    KeepsConsistent m s e ↔ s.Meets e := by
  obtain ⟨s', out, hstep, hs'⟩ := hsome
  exact iff_of_true ⟨s', out, hstep, consistent_iff.2 hs'⟩ hmeets

theorem entries_failed (h : Entries s.routes) (saddr : ℤ) (l : List (ℤ × ℕ)) :
    Entries (s.failed saddr l) := by
  rw [failed]
  generalize s.routes = l' at h
  induction l generalizing l' with
  | nil => exact h
  | cons u l ih =>
    exact ih _ (h.updateKey (Route.fail_dst saddr u.2) fun r hr => hr.fail saddr u.2)

variable (now) in
theorem exists_recv (hm : 2 ∣ m) (h : Entries s.routes) (hs : s.Sane) (p : DataPacket) :
    ∃ s' out, s.recv m now p = some (s', out) ∧ Entries s'.routes := by
  rcases recv_cases m s now p with hdrop | ⟨p', -, heq⟩
  · exact ⟨s, [], hdrop, h⟩
  · rw [heq]
    split_ifs with hcast
    · have hup : (s.routeTo p'.daddr).flags = .up → (s.routeTo p'.daddr).hops ≠ infinity2 := by
        have hmem := (mem_of_findKey (findKey_ensureRoute s p'.daddr)).1
        exact ((h.ensureRoute p'.daddr).ok _ hmem).1.2
      obtain ⟨s', out, hs'⟩ := exists_rtResolve now hm hs.even hcast hup
      refine ⟨s', out, hs', ?_⟩
      rw [(acts_rtResolve (m := m) hcast hs').1.routes]
      exact h.ensureRoute p'.daddr
    · obtain ⟨s', out, hs'⟩ := exists_broadcast (s := s) (not_not.1 hcast)
      exact ⟨s', out, hs', (quiet_broadcast (m := m) hs').routes ▸ h⟩

theorem nbDelete_iff (hm : 2 ∣ m) (h : Entries s.routes) (hs : s.Sane) (id : ℤ) :
    (∃ s' out, s.nbDelete m id = some (s', out)) ↔ (s.through id).length ≤ aodvMaxErrors := by
  constructor
  · rintro ⟨s', out, hs'⟩
    exact (acts_nbDelete hs').2.2
  · exact exists_nbDelete hm hs.even h.live

theorem entries_nbDelete (h : Entries s.routes) {id : ℤ} (hs' : s.nbDelete m id = some (s', out)) :
    Entries s'.routes := by
  rw [(acts_nbDelete hs').1.routes]
  exact h.map (Route.lose_dst m id) fun r hr => hr.lose m id

theorem rtLlFailed_iff (hm : 2 ∣ m) (h : Entries s.routes) (hs : s.Sane) (isData : Bool) (p : DataPacket) :
    KeepsConsistent m s (now, .rtLlFailed isData p) ↔ s.Meets (now, .rtLlFailed isData p) := by
  have hstep : (aodvMachine m).step s (now, .rtLlFailed isData p) = s.rtLlFailed m now isData p := rfl
  rw [rtLlFailed] at hstep
  by_cases hdrop : !isData ∨ p.daddr = ipBroadcast
  · rw [if_pos hdrop] at hstep
    refine keeps_of_exists (fun hdata hcast => ?_) ⟨s, [], hstep, h⟩
    rcases hdrop with hd | hb
    · rw [hdata] at hd
      cases hd
    · exact absurd hb hcast
  · rw [if_neg hdrop] at hstep
    obtain ⟨hdata, hcast⟩ := not_or.1 hdrop
    have hdata : isData = true := by simpa using hdata
    cases hrt : s.rtLookup p.daddr with
    | none =>
      rw [hrt] at hstep
      exact keeps_of_exists (fun _ _ rt hrt' => by rw [hrt] at hrt'; cases hrt') ⟨s, [], hstep, h⟩
    | some rt =>
      rw [hrt] at hstep
      have hmeets : s.Meets (now, .rtLlFailed isData p) ↔
          if (rt.hops : ℤ) < p.numForwards then rt.hops = infinity2
          else (s.through p.nextHop).length ≤ aodvMaxErrors := by
        rw [Meets]
        dsimp only
        rw [imp_iff_right hdata, imp_iff_right hcast, hrt]
        exact ⟨fun hall => hall rt rfl, fun hone rt' hrt' => by cases hrt'; exact hone⟩
      rw [hmeets]
      dsimp only at hstep
      split_ifs at hstep ⊢ with hnear
      · have hdst : rt.dst = p.daddr := (mem_of_findKey hrt).2
        obtain ⟨s', out, hs'⟩ := exists_localRtRepair now p hm hs.even (hdst.symm ▸ hrt)
        rw [keepsConsistent_iff (l := updateKey Route.dst rt.dst (fun r => { r with flags := .inRepair })
            s.routes) ⟨s', out, hstep.trans hs'⟩ fun s₁ out₁ hs₁ => ?_]
        · rw [h.updateKey_iff (by exact fun _ => rfl), lookup_route, hdst, hrt]
          constructor
          · exact fun hall => (Route.ok_inRepair_iff rt.route).1 (hall rt.route rfl)
          · intro hhops r hr
            cases hr
            exact (Route.ok_inRepair_iff rt.route).2 hhops
        · exact (acts_localRtRepair (m := m) hcast (hstep.symm.trans hs₁)).1.routes
      · rw [← nbDelete_iff hm h hs]
        constructor
        · rintro ⟨s', out, hs', -⟩
          exact ⟨s', out, hstep.symm.trans hs'⟩
        · rintro ⟨s', out, hs'⟩
          exact ⟨s', out, hstep.trans hs', consistent_iff.2 (entries_nbDelete h hs')⟩

theorem length_through_lose (l : List Route) (hl : Live l) (id id' : ℤ) :
    ((l.map (Route.lose m id)).filter fun r => r.hops ≠ infinity2 ∧ r.nexthop = id').length =
      if id' = id then 0 else (l.filter fun r => r.hops ≠ infinity2 ∧ r.nexthop = id').length := by
  have hone : ∀ r ∈ l, ((r.lose m id).hops ≠ infinity2 ∧ (r.lose m id).nexthop = id') ↔
      id' ≠ id ∧ r.hops ≠ infinity2 ∧ r.nexthop = id' := by
    intro r hr
    rw [Route.lose]
    split_ifs with hlost
    · have hdown := Route.hops_down (r := { r with seqno := (r.seqno + 1) % m }) (hl r hr hlost.1).1
      exact iff_of_false (fun hfin => hfin.1 hdown) fun hfin => hfin.1 (hfin.2.2.symm.trans hlost.2)
    · refine (and_iff_right_of_imp fun hfin heq => hlost ⟨hfin.1, hfin.2.trans heq⟩).symm
  rw [← countP_eq_length_filter, ← countP_eq_length_filter, countP_map]
  split_ifs with heq
  · rw [countP_eq_zero]
    intro r hr hfin
    exact ((hone r hr).1 (by simpa using hfin)).1 heq
  · refine countP_congr fun r hr => ?_
    simp only [Function.comp_apply, decide_eq_true_eq]
    exact (hone r hr).trans (and_iff_right heq)

variable (now) in
theorem nbPurge_iff (hm : 2 ∣ m) (h : Entries s.routes) (hs : s.Sane) (nbs : List Neighbor)
    (out₀ : List Sent) :
    (∃ s' out, nbs.foldlM (fun (r : AodvAgent × List Sent) nb => if nb.expire ≤ now then
        (r.1.nbDelete m nb.addr).map fun r' => (r'.1, r.2 ++ r'.2) else some r) (s, out₀) = some (s', out) ∧
        Entries s'.routes) ↔
      ∀ nb ∈ nbs, nb.expire ≤ now → (s.through nb.addr).length ≤ aodvMaxErrors := by
  induction nbs generalizing s out₀ with
  | nil => exact iff_of_true ⟨s, out₀, rfl, h⟩ fun _ hnb => absurd hnb not_mem_nil
  | cons nb nbs ih =>
    rw [foldlM_cons, forall_mem_cons]
    by_cases hnow : nb.expire ≤ now
    · rw [if_pos hnow, imp_iff_right hnow, ← nbDelete_iff hm h hs]
      cases hdel : s.nbDelete m nb.addr with
      | none => exact iff_of_false (by simp) (by simp)
      | some r =>
        have hpair : s.nbDelete m nb.addr = some (r.1, r.2) := hdel
        have hacts := acts_nbDelete hpair
        have hthrough : ∀ id', (r.1.through id').length =
            if id' = nb.addr then 0 else (s.through id').length := by
          intro id'
          rw [through, hacts.1.routes]
          exact length_through_lose s.routes h.live nb.addr id'
        refine (ih (entries_nbDelete h hdel) (hs.acts hacts.1) _).trans ?_
        rw [and_iff_right ⟨r.1, r.2, rfl⟩]
        refine forall₂_congr fun nb' _ => imp_congr_right fun _ => ?_
        rw [hthrough]
        split_ifs with heq
        · exact iff_of_true (Nat.zero_le _) (heq ▸ hacts.2.2)
        · exact Iff.rfl
    · rw [if_neg hnow]
      exact (ih h hs out₀).trans (and_iff_right fun hn => absurd hn hnow).symm

theorem ok_expired {r : Route} (h : r.Ok) (m : ℕ) : (expired m r).Ok := Route.ok_down h.hops_of_down

section

variable (hm : 2 ∣ m) (h : Entries s.routes) (hs : s.Sane)
include hm h hs

variable (now) in
theorem exists_purgeRoute_entries {d : ℤ}
    (hd : d ∈ s.routes.map Route.dst) : ∃ s' out, s.purgeRoute m now d = some (s', out) ∧
      Entries s'.routes ∧ s'.Sane ∧ s'.routes.map Route.dst = s.routes.map Route.dst := by
  obtain ⟨r, hr, rfl⟩ := mem_map.1 hd
  have hfind := findKey_of_mem h.nodup hr
  obtain ⟨s', out, hs'⟩ := exists_purgeRoute now hm hs.even hs.queue hfind fun hup =>
    ⟨(h.ok r hr).1.2 hup, (h.ok r hr).2 hup⟩
  refine ⟨s', out, hs', ?_⟩
  rcases acts_purgeRoute hs' with hquiet | ⟨-, -, -, hacts⟩
  · exact ⟨hquiet.routes ▸ h, hs.acts hquiet.toActs, congrArg _ hquiet.routes⟩
  · have hdst : ∀ r, (expired m r).dst = r.dst := fun r => Route.down_dst _
    rw [hacts.routes]
    exact ⟨h.updateKey hdst fun r hr => ok_expired hr m, hs.acts hacts,
      map_updateKey fun r hr => (hdst r).trans hr⟩

theorem exists_rtPurge (now : ℚ) :
    ∃ s' out, s.rtPurge m now = some (s', out) ∧ Entries s'.routes := by
  have hloop : ∀ (l : List ℤ) (s : AodvAgent) (out₀ : List Sent), Entries s.routes → s.Sane →
      (∀ d ∈ l, d ∈ s.routes.map Route.dst) → ∃ s' out,
      l.foldlM (fun (r : AodvAgent × List Sent) dst =>
        (r.1.purgeRoute m now dst).map fun r' => (r'.1, r.2 ++ r'.2)) (s, out₀) = some (s', out) ∧
        Entries s'.routes := by
    intro l
    induction l with
    | nil => exact fun s out₀ h _ _ => ⟨s, out₀, rfl, h⟩
    | cons d l ih =>
      intro s out₀ h hs hl
      obtain ⟨s₁, out₁, hs₁, h₁, hsane, hkeys⟩ :=
        exists_purgeRoute_entries now hm h hs (hl d mem_cons_self)
      rw [foldlM_cons]
      rw [hs₁]
      exact ih s₁ _ h₁ hsane fun d' hd' => hkeys ▸ hl d' (mem_cons_of_mem d hd')
  refine hloop _ s [] h hs fun d hd => ?_
  obtain ⟨rt, hrt, rfl⟩ := mem_map.1 hd
  exact mem_map.2 ⟨rt.route, mem_routes_of_mem hrt, rfl⟩

/-- One event keeps the entries as they should be, and fails no assertion, exactly when it meets the
condition. -/
theorem keepsConsistent_iff_meets (e : ℚ × AodvEvent) :
    KeepsConsistent m s e ↔ s.Meets e := by
  obtain ⟨now, e⟩ := e
  cases e with
  | recvAODV p =>
    cases hp : p.msg with
    | request rq => exact recvRequest_iff hm h hs hp
    | reply rp => exact recvReply_iff h hs hp
    | error re =>
      obtain ⟨s', out, hs'⟩ := exists_recvError p.saddr h.live re
      refine keeps_of_exists (by rw [Meets]; dsimp only; rw [hp]; trivial) ⟨s', out, ?_, ?_⟩
      · change s.recvAODV m now p = _
        rw [recvAODV, hp]
        exact hs'
      · rw [(acts_recvError (m := m) hs').1.routes]
        exact entries_failed h p.saddr re.unreachable
    | hello hopCount dst dstSeqno lifetime =>
      obtain ⟨s', hs'⟩ := exists_recvHello hm hs.even now dst
      refine keeps_of_exists (by rw [Meets]; dsimp only; rw [hp]; trivial) ⟨s', [], ?_, ?_⟩
      · change s.recvAODV m now p = _
        rw [recvAODV, hp]
        exact congrArg (Option.map _) hs'
      · exact (acts_recvHello hs').routes ▸ h
  | recv p =>
    obtain ⟨s', out, hs', hl⟩ := exists_recv now hm h hs p
    exact keeps_of_exists trivial ⟨s', out, hs', hl⟩
  | rtLlFailed isData p => exact rtLlFailed_iff hm h hs isData p
  | localRepairTimeout dst =>
    refine keeps_of_exists trivial ⟨_, _, rfl, ?_⟩
    rw [(acts_localRepairTimeout m s dst).routes]
    split_ifs
    · exact h.updateKey (fun r => by rw [Route.giveUp]; split_ifs <;> simp) fun r hr => hr.giveUp
    · exact h
  | idPurge => exact keeps_of_exists trivial ⟨_, _, rfl, h⟩
  | sendHello => exact keeps_of_exists trivial ⟨_, _, rfl, h⟩
  | nbPurge =>
    refine Iff.trans ?_ (nbPurge_iff now hm h hs s.nblist [])
    refine exists₂_congr fun s' out => and_congr_right fun _ => consistent_iff
  | rtPurge =>
    obtain ⟨s', out, hs', hl⟩ := exists_rtPurge hm h hs now
    exact keeps_of_exists trivial ⟨s', out, hs', hl⟩

end

theorem Sane.step (hm : 2 ∣ m) (hs : s.Sane) (hstep : (aodvMachine m).step s e = some (s', out)) :
    s'.Sane := by
  obtain ⟨now, e⟩ := e
  cases e with
  | recvAODV p =>
    change s.recvAODV m now p = _ at hstep
    rw [recvAODV] at hstep
    cases hp : p.msg with
    | request rq =>
      rw [hp] at hstep
      by_cases hnew : s.New rq
      · exact hs.acts (acts_recvRequest hm hnew hstep).1
      · cases (recvRequest_of_not_new hnew).symm.trans hstep
        exact hs
    | reply rp =>
      rw [hp] at hstep
      exact hs.acts (acts_recvReply (m := m) hstep).1
    | error re =>
      rw [hp] at hstep
      exact hs.acts (acts_recvError (m := m) hstep).1
    | hello hopCount dst dstSeqno lifetime =>
      rw [hp] at hstep
      obtain ⟨s₁, hs₁, heq⟩ := Option.map_eq_some_iff.1 hstep
      cases heq
      exact hs.acts (acts_recvHello hs₁)
  | recv p =>
    change s.recv m now p = _ at hstep
    rcases recv_cases m s now p with hdrop | ⟨p', -, heq⟩
    · cases hdrop.symm.trans hstep
      exact hs
    · rw [heq] at hstep
      split_ifs at hstep with hcast
      · exact hs.acts (acts_rtResolve (m := m) hcast hstep).1
      · exact hs.acts (quiet_broadcast (m := m) hstep).toActs
  | rtLlFailed isData p =>
    change s.rtLlFailed m now isData p = _ at hstep
    rw [rtLlFailed] at hstep
    split_ifs at hstep with hdrop
    · cases hstep
      exact hs
    · split at hstep
      · cases hstep
        exact hs
      · split_ifs at hstep
        · exact hs.acts (acts_localRtRepair (m := m) (not_or.1 hdrop).2 hstep).1
        · exact hs.acts (acts_nbDelete hstep).1
  | localRepairTimeout dst =>
    cases hstep
    exact hs.acts (acts_localRepairTimeout m s dst)
  | idPurge =>
    cases hstep
    exact ⟨hs.even, hs.queue⟩
  | sendHello =>
    cases hstep
    exact hs
  | nbPurge =>
    refine foldlM_keeps (Q := fun r : AodvAgent × List Sent => r.1.Sane) (fun nb r r' hr hsane => ?_) hstep hs
    split_ifs at hr
    · obtain ⟨r₁, hr₁, rfl⟩ := Option.map_eq_some_iff.1 hr
      exact hsane.acts (acts_nbDelete hr₁).1
    · cases hr
      exact hsane
  | rtPurge =>
    refine foldlM_keeps (Q := fun r : AodvAgent × List Sent => r.1.Sane) (fun d r r' hr hsane => ?_) hstep hs
    obtain ⟨r₁, hr₁, rfl⟩ := Option.map_eq_some_iff.1 hr
    rcases acts_purgeRoute hr₁ with hquiet | ⟨-, -, -, hacts⟩
    · exact hsane.acts hquiet.toActs
    · exact hsane.acts hacts

theorem runsWith_iff (hm : 2 ∣ m) (h : Entries s.routes) (hs : s.Sane) (es : List (ℚ × AodvEvent)) :
    (aodvMachine m).RunsWith (KeepsConsistent m) s es ↔ (aodvMachine m).RunsWith Meets s es := by
  refine Machine.runsWith_congr (I := fun s : AodvAgent => Entries s.routes ∧ s.Sane)
    (fun s e hI => keepsConsistent_iff_meets hm hI.1 hI.2 e)
    (fun s e s' out hI hkeeps hstep => ?_) ⟨h, hs⟩ es
  obtain ⟨s₁, out₁, hs₁, hcons⟩ := hkeeps
  obtain ⟨rfl, -⟩ := Prod.mk.inj (Option.some.inj (hs₁.symm.trans hstep))
  exact ⟨consistent_iff.1 hcons, hI.2.step hm hstep⟩

theorem entries_new (id here : ℤ) : Entries (new id here).routes :=
  ⟨fun _ hr => absurd hr not_mem_nil, nodup_nil⟩

theorem sane_new (id here : ℤ) : (new id here).Sane := ⟨Nat.mod_self 2, fun _ hp => absurd hp not_mem_nil⟩

/-- In every run of a node each state reached has its entries as they should be, no assertion fails and no
route error overflows, exactly when every event meets the condition. -/
theorem runsWith_keepsConsistent_iff (id here : ℤ) (es : List (ℚ × AodvEvent)) :
    (aodvMachine (2 ^ 32)).RunsWith (KeepsConsistent (2 ^ 32)) (new id here) es ↔
      (aodvMachine (2 ^ 32)).RunsWith Meets (new id here) es :=
  runsWith_iff (by decide) (entries_new id here) (sane_new id here) es

/-- A reply of the destination, one hop away. -/
def replyOf (dst : ℤ) : AodvPacket := ⟨dst, 1, 30, .reply ⟨1, dst, 4, dst, 10, 0⟩⟩

/-- A packet to node 2 that has come a long way. -/
def packetTo (numForwards : ℤ) : DataPacket := ⟨7, 2, 20, numForwards, false, 2, 0⟩

/-- A route to node 2 is repaired, and then the link to node 2 fails for a packet that has come less far. -/
def repaired : List (ℚ × AodvEvent) := [(1, .recvAODV (replyOf 2)), (2, .rtLlFailed true (packetTo 2))]

def lost : ℚ × AodvEvent := (3, .rtLlFailed true (packetTo 0))

/-- The entry under repair keeps its hop count, and the loss of the neighbour fails an assertion. -/
theorem not_keepsConsistent_repaired :
    ¬(aodvMachine (2 ^ 32)).RunsWith (KeepsConsistent (2 ^ 32)) (new 1 1) repaired ∧
      ((aodvMachine (2 ^ 32)).run (new 1 1) repaired).isSome = true ∧
      (aodvMachine (2 ^ 32)).run (new 1 1) (repaired ++ [lost]) = none := by
  refine ⟨fun hruns => ?_, by decide +kernel, by decide +kernel⟩
  have hrepair : (((aodvMachine (2 ^ 32)).run (new 1 1) repaired).bind fun r => r.1.rtLookup 2).map
      (fun rt => (rt.hops, rt.flags)) = some (1, .inRepair) := by decide +kernel
  obtain ⟨rt, hrt, heq⟩ := Option.map_eq_some_iff.1 hrepair
  obtain ⟨r, hr, hrt⟩ := Option.bind_eq_some_iff.1 hrt
  obtain ⟨hhops, hflags⟩ := Prod.mk.inj heq
  have hcons : r.1.Consistent := by
    refine hruns.keeps (fun s e s' out _ hkeeps hstep => ?_) hr (consistent_iff.2 (entries_new 1 1))
    obtain ⟨s₁, out₁, hs₁, hcons⟩ := hkeeps
    obtain ⟨rfl, -⟩ := Prod.mk.inj (Option.some.inj (hstep.symm.trans hs₁))
    exact hcons
  have hup := (hcons.hops rt (mem_of_findKey hrt).1).1 (by rw [hhops]; decide)
  rw [hflags] at hup
  cases hup

end AodvAgent

end Ns2.Aodv
