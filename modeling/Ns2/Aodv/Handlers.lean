import Ns2.Aodv.Effects

/-! What the handlers of AODV do to the routes of a node, and what they send. -/

namespace Ns2.Aodv

namespace AodvAgent

open List Option

variable {m : ℕ} {s s' s'' : AodvAgent} {now : ℚ} {d id saddr : ℤ} {p : DataPacket}
  {out out' : List Sent} {rt : RtEntry}
variable {seqnum metric : ℕ} {nexthop : ℤ}

/-- The entry for a destination, or the one that is added for it. -/
def routeTo (s : AodvAgent) (d : ℤ) : Route := (findKey Route.dst d s.routes).getD (.new d)

theorem findKey_ensureRoute (s : AodvAgent) (d : ℤ) :
    findKey Route.dst d (ensureRoute d s.routes) = some (s.routeTo d) := by
  rw [ensureRoute, routeTo]
  cases hr : findKey Route.dst d s.routes with
  | none => exact (findKey_cons ..).trans (if_pos rfl)
  | some r => exact hr

theorem lookup_rtEnsure (s : AodvAgent) (d : ℤ) :
    ∃ rt, (s.rtEnsure d).rtLookup d = some rt ∧ rt.route = s.routeTo d := by
  have h := lookup_route (s.rtEnsure d) d
  rw [routes_rtEnsure, findKey_ensureRoute] at h
  obtain ⟨rt, hrt, heq⟩ := map_eq_some_iff.1 h.symm
  exact ⟨rt, hrt, heq⟩

theorem findKey_ensureRoute_ne {b : ℤ} (hb : b ≠ d) (l : List Route) :
    findKey Route.dst b (ensureRoute d l) = findKey Route.dst b l := by
  rw [ensureRoute]
  split_ifs
  · rfl
  · exact (findKey_cons ..).trans (if_neg (Ne.symm hb))

/-- The routes after a route to `d` has been received. -/
def received (s : AodvAgent) (d : ℤ) (seqnum metric : ℕ) (nexthop : ℤ) : List Route :=
  updateKey Route.dst d (Route.receive seqnum metric nexthop) (ensureRoute d s.routes)

theorem received_of_fresher (h : (s.routeTo d).Fresher seqnum metric) :
    s.received d seqnum metric nexthop =
      updateKey Route.dst d (Route.update seqnum metric nexthop) (ensureRoute d s.routes) := by
  refine updateKey_congr fun r hr => ?_
  obtain rfl := some.inj ((findKey_ensureRoute s d).symm.trans hr)
  rw [Route.receive, if_pos h]

theorem received_of_not_fresher (h : ¬(s.routeTo d).Fresher seqnum metric) :
    s.received d seqnum metric nexthop = ensureRoute d s.routes := by
  refine (updateKey_congr fun r hr => ?_).trans (updateKey_id Route.dst d _)
  obtain rfl := some.inj ((findKey_ensureRoute s d).symm.trans hr)
  rw [Route.receive, if_neg h]

section Reverse

variable {rq : RouteRequest}

/-- The entry for the source of a request before the route is compared. -/
def heardOf (s : AodvAgent) (now : ℚ) (d : ℤ) : AodvAgent :=
  (s.rtEnsure d).writeRt d fun rt0 => { rt0 with expire := max rt0.expire (now + revRouteLife) }

theorem acts_heardOf (m : ℕ) (s : AodvAgent) (now : ℚ) (d : ℤ) :
    Acts m s (s.heardOf now d) (ensureRoute d s.routes) := by
  have hw := Quiet.writeRt (m := m) (s := s.rtEnsure d) d
    (f := fun rt0 => { rt0 with expire := max rt0.expire (now + revRouteLife) }) fun _ => rfl
  exact routes_rtEnsure (s := s) ▸ (Acts.rtEnsure m s d).trans hw.toActs

theorem lookup_heardOf (s : AodvAgent) (now : ℚ) (d : ℤ) :
    ∃ rt, (s.heardOf now d).rtLookup d = some rt ∧ rt.route = s.routeTo d := by
  have h := lookup_route (s.heardOf now d) d
  rw [(acts_heardOf 0 s now d).routes, findKey_ensureRoute] at h
  obtain ⟨rt, hrt, heq⟩ := map_eq_some_iff.1 h.symm
  exact ⟨rt, hrt, heq⟩

theorem takeRequest_route (now : ℚ) (saddr : ℤ) (rq : RouteRequest) (rt0 : RtEntry) :
    (takeRequest now saddr rq rt0).route = rt0.route.update rq.srcSeqno rq.hopCount saddr := by
  rw [takeRequest]
  split_ifs <;> rfl

theorem updateReverse_of_fresher (h : (s.routeTo rq.src).Fresher rq.srcSeqno rq.hopCount) :
    s.updateReverse now saddr rq =
      let s₁ := (s.heardOf now rq.src).writeRt rq.src (takeRequest now saddr rq)
      if rq.hopCount = infinity2 ∧ buffered now rq.src s₁.rqueue ≠ [] then none
      else s₁.flush now rq.src := by
  obtain ⟨rt, hrt, heq⟩ := lookup_heardOf s now rq.src
  rw [heardOf] at hrt
  simp only [updateReverse, hrt]
  rw [← heq] at h
  exact if_pos h

theorem updateReverse_of_not_fresher (h : ¬(s.routeTo rq.src).Fresher rq.srcSeqno rq.hopCount) :
    s.updateReverse now saddr rq = some (s.heardOf now rq.src, []) := by
  obtain ⟨rt, hrt, heq⟩ := lookup_heardOf s now rq.src
  rw [heardOf] at hrt
  simp only [updateReverse, hrt]
  rw [← heq] at h
  exact if_neg h

variable (now saddr) in
theorem acts_takeRequest (h : (s.routeTo rq.src).Fresher rq.srcSeqno rq.hopCount) :
    Acts m s ((s.heardOf now rq.src).writeRt rq.src (takeRequest now saddr rq))
      (s.received rq.src rq.srcSeqno rq.hopCount saddr) := by
  have hacts := acts_heardOf m s now rq.src
  rw [received_of_fresher h, ← hacts.routes]
  exact hacts.trans (Acts.writeRt (takeRequest_route now saddr rq))

theorem acts_updateReverse (h : s.updateReverse now saddr rq = some (s', out)) :
    Acts m s s' (s.received rq.src rq.srcSeqno rq.hopCount saddr) ∧ ∀ x ∈ out, Routine m s.index x := by
  by_cases hfresh : (s.routeTo rq.src).Fresher rq.srcSeqno rq.hopCount
  · rw [updateReverse_of_fresher hfresh] at h
    dsimp only at h
    split_ifs at h
    have hacts := acts_takeRequest (m := m) now saddr hfresh
    have hquiet := quiet_flush (m := m) h
    exact ⟨hacts.routes ▸ hacts.trans hquiet.toActs, hacts.index ▸ hquiet.sent⟩
  · rw [updateReverse_of_not_fresher hfresh] at h
    cases h
    rw [received_of_not_fresher hfresh]
    exact ⟨acts_heardOf m s now rq.src, fun _ hx => absurd hx not_mem_nil⟩

variable (now saddr) in
theorem exists_updateReverse (hq : ∀ p ∈ s.rqueue, p.daddr ≠ ipBroadcast)
    (hhops : (s.routeTo rq.src).Fresher rq.srcSeqno rq.hopCount → rq.hopCount ≠ infinity2) :
    ∃ s' out, s.updateReverse now saddr rq = some (s', out) := by
  by_cases hfresh : (s.routeTo rq.src).Fresher rq.srcSeqno rq.hopCount
  · have hacts := acts_takeRequest (m := 0) now saddr hfresh
    have hfind : findKey Route.dst rq.src ((s.heardOf now rq.src).writeRt rq.src
        (takeRequest now saddr rq)).routes =
        some ((s.routeTo rq.src).update rq.srcSeqno rq.hopCount saddr) := by
      rw [hacts.routes, received_of_fresher hfresh, findKey_updateKey (by exact fun _ h => h), if_pos rfl,
        findKey_ensureRoute, map_some]
    rw [lookup_route] at hfind
    obtain ⟨rt, hrt, heq⟩ := map_eq_some_iff.1 hfind
    have hup : rt.flags = .up := congrArg Route.flags heq
    rw [updateReverse_of_fresher hfresh]
    rw [if_neg fun h => hhops hfresh h.1]
    exact exists_flush (hacts.queue hq) hrt hup
  · rw [updateReverse_of_not_fresher hfresh]
    exact ⟨_, _, rfl⟩

/-- What a node sends on a request besides: a reply of the destination, a reply with a route that it has,
or the request itself. -/
inductive Answers (s : AodvAgent) (ttl : ℤ) (rq : RouteRequest) : Sent → Prop
  | destination (nextHop : ℤ) {n : ℕ} {lifetime : ℚ} (hdst : rq.dst = s.index) (heven : n % 2 = 0) :
      Answers s ttl rq (.aodv (some nextHop) ⟨s.index, rq.src, networkDiameter,
        .reply ⟨1, s.index, n, s.index, lifetime, rq.timestamp⟩⟩)
  | cached (nextHop : ℤ) {r : Route} {lifetime : ℚ} (hr : findKey Route.dst rq.dst s.routes = some r)
      (hhops : r.hops ≠ infinity2) :
      Answers s ttl rq (.aodv (some nextHop) ⟨s.index, rq.src, networkDiameter,
        .reply ⟨(r.hops + 1) % 256, rq.dst, r.seqno, s.index, lifetime, rq.timestamp⟩⟩)
  | onward {n : ℕ} (httl : ttl ≠ 0) :
      Answers s ttl rq (.aodv none ⟨s.index, ipBroadcast, ttl,
        .request { rq with hopCount := (rq.hopCount + 1) % 256, dstSeqno := n }⟩)

theorem answers_forwardRequest (ttl : ℤ) : ∀ x ∈ s.forwardRequest ttl rq, s.Answers ttl rq x := by
  intro x hx
  rw [forwardRequest] at hx
  split_ifs at hx with h
  · cases hx
  · obtain rfl := mem_singleton.1 hx
    exact Answers.onward fun hz => h (Or.inl hz)

theorem own_seqno (hm : 2 ∣ m) {a b : ℕ} (n : ℕ) (hn : n = (max a b + 1) % m) :
    (if n % 2 = 1 then (n + 1) % m else n) % 2 = 0 ∧
      (m = 0 → a ≤ if n % 2 = 1 then (n + 1) % m else n) := by
  constructor
  · split_ifs
    · rw [Nat.mod_mod_of_dvd _ hm]
      omega
    · omega
  · rintro rfl
    rw [Nat.mod_zero] at hn
    split_ifs
    · rw [Nat.mod_zero]
      omega
    · omega

theorem acts_answerRequest (hm : 2 ∣ m) {ttl : ℤ} (h : s.answerRequest m now ttl rq = some (s', out)) :
    Acts m s s' s.routes ∧ ∀ x ∈ out, s.Answers ttl rq x := by
  have hrefl := (Quiet.refl m s).toActs
  rw [answerRequest] at h
  split_ifs at h with hdst
  · obtain ⟨out', hout, heq⟩ := map_eq_some_iff.1 h
    obtain ⟨heven, hle⟩ := own_seqno hm (a := s.seqno) (b := rq.dstSeqno) _ rfl
    cases heq
    refine ⟨⟨rfl, rfl, rfl, fun h => h, fun _ => heven, hle⟩, fun x hx => ?_⟩
    obtain ⟨rt, -, rfl⟩ := map_eq_some_iff.1 hout
    obtain rfl := mem_singleton.1 hx
    exact Answers.destination _ hdst heven
  · split at h
    · next rt0 rt hrt0 hrt =>
      split_ifs at h with hcached
      · obtain ⟨out', hout, heq⟩ := map_eq_some_iff.1 h
        cases heq
        have hw := Quiet.writeRt (m := m) (s := s) rq.dst
          (f := fun rt => rt.pcInsert rt0.nexthop) fun rt => rt.pcInsert_route _
        have hw' := Quiet.writeRt (m := m) rq.src (f := fun rt0 => rt0.pcInsert rt.nexthop)
          (s := s.writeRt rq.dst fun rt => rt.pcInsert rt0.nexthop) fun rt => rt.pcInsert_route _
        refine ⟨(hw.trans hw').toActs, fun x hx => ?_⟩
        obtain ⟨rt', -, rfl⟩ := map_eq_some_iff.1 hout
        obtain rfl := mem_singleton.1 hx
        refine Answers.cached (r := rt.route) _ ?_ hcached.1
        rw [lookup_route, hrt]
        rfl
      · cases h
        exact ⟨hrefl, answers_forwardRequest ttl⟩
    · cases h
      exact ⟨hrefl, answers_forwardRequest ttl⟩

theorem sendReply_eq {ipdst rpdst : ℤ} {rt0 : RtEntry} (hrt0 : s.rtLookup ipdst = some rt0)
    (hopCount rpseq : ℕ) (lifetime timestamp : ℚ) :
    s.sendReply ipdst hopCount rpdst rpseq lifetime timestamp =
      some [.aodv (some rt0.nexthop) ⟨s.index, ipdst, networkDiameter,
        .reply ⟨hopCount % 256, rpdst, rpseq, s.index, lifetime, timestamp⟩⟩] :=
  congrArg (Option.map _) hrt0

variable (now) in
theorem exists_answerRequest (ttl : ℤ) {r : Route} (hr : findKey Route.dst rq.src s.routes = some r) :
    ∃ s' out, s.answerRequest m now ttl rq = some (s', out) := by
  rw [lookup_route] at hr
  obtain ⟨rt0, hrt0, -⟩ := map_eq_some_iff.1 hr
  rw [answerRequest]
  split_ifs
  · dsimp only
    rw [sendReply_eq hrt0]
    exact ⟨_, _, rfl⟩
  · rw [hrt0]
    cases s.rtLookup rq.dst with
    | none => exact ⟨_, _, rfl⟩
    | some rt =>
      dsimp only
      split_ifs
      · rw [sendReply_eq hrt0]
        exact ⟨_, _, rfl⟩
      · exact ⟨_, _, rfl⟩

/-- The request is new to the node, and of another one. -/
def New (s : AodvAgent) (rq : RouteRequest) : Prop :=
  rq.src ≠ s.index ∧ s.idLookup rq.src rq.bcastId = false

instance (s : AodvAgent) (rq : RouteRequest) : Decidable (s.New rq) := inferInstanceAs (Decidable (_ ∧ _))

theorem recvRequest_of_not_new {ttl : ℤ} (h : ¬s.New rq) :
    s.recvRequest m now saddr ttl rq = some (s, []) := by
  rw [recvRequest]
  split_ifs with h₁ h₂
  · rfl
  · rfl
  · exact absurd ⟨h₁, Bool.eq_false_iff.2 h₂⟩ h

theorem recvRequest_of_new {ttl : ℤ} (h : s.New rq) : s.recvRequest m now saddr ttl rq =
    ((s.idInsert now rq.src rq.bcastId).updateReverse now saddr rq).bind fun r =>
      (r.1.answerRequest m now ttl rq).map fun r' => (r'.1, r.2 ++ r'.2) := by
  rw [recvRequest, if_neg h.1, if_neg (Bool.eq_false_iff.1 h.2)]

/-- A new request: the reverse route, and what is sent from the routes that are then there. -/
theorem acts_recvRequest (hm : 2 ∣ m) {ttl : ℤ} (hnew : s.New rq)
    (h : s.recvRequest m now saddr ttl rq = some (s', out)) :
    Acts m s s' (s.received rq.src rq.srcSeqno rq.hopCount saddr) ∧
      ∀ x ∈ out, Routine m s.index x ∨ s'.Answers ttl rq x := by
  rw [recvRequest_of_new hnew] at h
  obtain ⟨r, hr, h⟩ := bind_eq_some_iff.1 h
  obtain ⟨r', hr', heq⟩ := map_eq_some_iff.1 h
  cases heq
  obtain ⟨hacts, hsent⟩ := acts_updateReverse (m := m) hr
  obtain ⟨hacts', hsent'⟩ := acts_answerRequest hm hr'
  have hkept : r'.1.routes = r.1.routes := hacts'.routes
  have hacts₁ : Acts m s r.1 (s.received rq.src rq.srcSeqno rq.hopCount saddr) :=
    ⟨hacts.index, hacts.here, hacts.routes, hacts.queue, hacts.parity, hacts.seqno⟩
  refine ⟨hacts₁.routes ▸ hacts₁.trans hacts', fun x hx => ?_⟩
  rcases mem_append.1 hx with hx | hx
  · exact Or.inl (hsent x hx)
  · right
    cases hsent' x hx with
    | destination nextHop hdst heven =>
      rw [← hacts'.index]
      exact Answers.destination nextHop (hacts'.index ▸ hdst) heven
    | cached nextHop hfind hhops =>
      rw [← hacts'.index]
      exact Answers.cached nextHop (hkept ▸ hfind) hhops
    | onward httl =>
      rw [← hacts'.index]
      exact Answers.onward httl

theorem exists_recvRequest (m : ℕ) (now : ℚ) (saddr ttl : ℤ) (hq : ∀ p ∈ s.rqueue, p.daddr ≠ ipBroadcast)
    (hhops : s.New rq → (s.routeTo rq.src).Fresher rq.srcSeqno rq.hopCount → rq.hopCount ≠ infinity2) :
    ∃ s' out, s.recvRequest m now saddr ttl rq = some (s', out) := by
  by_cases hnew : s.New rq
  · rw [recvRequest_of_new hnew]
    obtain ⟨s₁, out₁, hs₁⟩ := exists_updateReverse now saddr
      (s := s.idInsert now rq.src rq.bcastId) hq (hhops hnew)
    have hfind : ∃ r, findKey Route.dst rq.src s₁.routes = some r := by
      rw [(acts_updateReverse (m := 0) hs₁).1.routes, received,
        findKey_updateKey fun r h => (r.receive_dst ..).trans h, if_pos rfl, findKey_ensureRoute]
      exact ⟨_, rfl⟩
    obtain ⟨r, hr⟩ := hfind
    obtain ⟨s₂, out₂, hs₂⟩ := exists_answerRequest (m := m) now ttl hr
    rw [hs₁, bind_some, hs₂]
    exact ⟨_, _, rfl⟩
  · exact ⟨_, _, recvRequest_of_not_new hnew⟩

end Reverse

section Reply

variable {rp : RouteReply} {daddr ttl : ℤ}

theorem takeReply_route (now : ℚ) (forMe : Bool) (rp : RouteReply) (rt : RtEntry) :
    (takeReply now forMe rp rt).route = rt.route.update rp.dstSeqno rp.hopCount rp.src := by
  rw [takeReply]
  split_ifs <;> rfl

/-- The reply is passed on by a node that has taken its route. -/
inductive Relays (s : AodvAgent) (daddr : ℤ) (rp : RouteReply) : Sent → Prop
  | intro (nextHop ttl : ℤ) (hdaddr : daddr ≠ s.index) (hfresh : (s.routeTo rp.dst).Fresher rp.dstSeqno
      rp.hopCount) : Relays s daddr rp (.aodv (some nextHop) ⟨s.index, daddr, ttl,
        .reply { rp with hopCount := (rp.hopCount + 1) % 256, src := s.index }⟩)

theorem quiet_forwardReply (h : s.forwardReply now daddr ttl rp = some (s', out)) :
    Acts m s s' s.routes ∧ ∀ x ∈ out, ∃ nextHop, x = .aodv (some nextHop) ⟨s.index, daddr, ttl,
      .reply { rp with hopCount := (rp.hopCount + 1) % 256, src := s.index }⟩ := by
  have hrefl := Quiet.refl m s
  have hnone : ∀ P : Sent → Prop, ∀ x ∈ ([] : List Sent), P x := fun _ _ hx => absurd hx not_mem_nil
  rw [forwardReply] at h
  split at h
  · cases h
    exact ⟨hrefl.toActs, hnone _⟩
  · next rt0 _ =>
    have hnoted : ∀ s₁ : AodvAgent,
        Quiet m s₁ (s₁.writeRt rp.dst fun rt => rt.pcInsert rt0.nexthop) [] :=
      fun s₁ => Quiet.writeRt _ fun rt => rt.pcInsert_route _
    split_ifs at h
    · cases h
      exact ⟨hrefl.toActs, hnone _⟩
    · cases h
      exact ⟨(hnoted s).toActs, hnone _⟩
    · cases h
      have hw := Quiet.writeRt (m := m) (s := s) daddr
        (f := fun rt0 => { rt0 with expire := now + activeRouteTimeout }) fun _ => rfl
      exact ⟨(hw.trans (hnoted _)).toActs, fun x hx => ⟨_, mem_singleton.1 hx⟩⟩

/-- The state after a fresher reply has been taken. -/
def taken (s : AodvAgent) (now : ℚ) (daddr : ℤ) (rp : RouteReply) : AodvAgent :=
  (s.rtEnsure rp.dst).writeRt rp.dst (takeReply now (daddr = s.index) rp)

variable (now daddr) in
theorem acts_taken (h : (s.routeTo rp.dst).Fresher rp.dstSeqno rp.hopCount) :
    Acts m s (s.taken now daddr rp) (s.received rp.dst rp.dstSeqno rp.hopCount rp.src) := by
  rw [received_of_fresher h, ← routes_rtEnsure]
  exact (Acts.rtEnsure m s rp.dst).trans (Acts.writeRt (takeReply_route now _ rp))

theorem recvReply_of_not_fresher (h : ¬(s.routeTo rp.dst).Fresher rp.dstSeqno rp.hopCount) :
    s.recvReply now daddr ttl rp = some (s.rtEnsure rp.dst, []) := by
  obtain ⟨rt, hrt, heq⟩ := lookup_rtEnsure s rp.dst
  rw [recvReply, hrt]
  rw [← heq] at h
  exact if_neg h

theorem recvReply_of_fresher (h : (s.routeTo rp.dst).Fresher rp.dstSeqno rp.hopCount) :
    s.recvReply now daddr ttl rp = ((s.taken now daddr rp).flushReply now rp).bind fun r =>
      if decide (daddr = s.index) then some r
      else (r.1.forwardReply now daddr ttl rp).map fun r' => (r'.1, r.2 ++ r'.2) := by
  obtain ⟨rt, hrt, heq⟩ := lookup_rtEnsure s rp.dst
  rw [recvReply, hrt]
  rw [← heq] at h
  exact if_pos h

theorem quiet_flushReply (h : s.flushReply now rp = some (s', out)) : Quiet m s s' out := by
  rw [flushReply] at h
  split_ifs at h
  · cases h
    exact Quiet.queued fun p hp => mem_of_mem_leftBy hp
  · exact quiet_flush h

theorem acts_recvReply (h : s.recvReply now daddr ttl rp = some (s', out)) :
    Acts m s s' (s.received rp.dst rp.dstSeqno rp.hopCount rp.src) ∧
      ∀ x ∈ out, Routine m s.index x ∨ s.Relays daddr rp x := by
  by_cases hfresh : (s.routeTo rp.dst).Fresher rp.dstSeqno rp.hopCount
  · rw [recvReply_of_fresher hfresh] at h
    obtain ⟨r, hr, h⟩ := bind_eq_some_iff.1 h
    have hacts := acts_taken (m := m) now daddr hfresh
    have hquiet : Quiet m (s.taken now daddr rp) r.1 r.2 := quiet_flushReply hr
    have hacts₁ := hacts.routes ▸ hacts.trans hquiet.toActs
    have hsent : ∀ x ∈ r.2, Routine m s.index x := hacts.index ▸ hquiet.sent
    split_ifs at h with hme
    · cases h
      exact ⟨hacts₁, fun x hx => Or.inl (hsent x hx)⟩
    · obtain ⟨r', hr', heq⟩ := map_eq_some_iff.1 h
      cases heq
      obtain ⟨hacts', hsent'⟩ := quiet_forwardReply (m := m) hr'
      refine ⟨hacts₁.routes ▸ hacts₁.trans hacts', fun x hx => ?_⟩
      rcases mem_append.1 hx with hx | hx
      · exact Or.inl (hsent x hx)
      · obtain ⟨nextHop, rfl⟩ := hsent' x hx
        rw [hacts₁.index]
        exact Or.inr (Relays.intro nextHop ttl (of_decide_eq_false (Bool.eq_false_iff.2 hme)) hfresh)
  · rw [recvReply_of_not_fresher hfresh] at h
    cases h
    rw [received_of_not_fresher hfresh]
    exact ⟨Acts.rtEnsure m s rp.dst, fun _ hx => absurd hx not_mem_nil⟩

variable (now rp) in
theorem exists_forwardReply_iff : (∃ s' out, s.forwardReply now daddr ttl rp = some (s', out)) ↔
    ∀ r, findKey Route.dst daddr s.routes = some r → r.hops ≠ infinity2 →
      r.flags = .up ∧ (ttl = 0 ∨ daddr = s.here ∨ daddr ≠ ipBroadcast) := by
  rw [forwardReply, lookup_route]
  cases s.rtLookup daddr with
  | none => exact iff_of_true ⟨_, _, rfl⟩ fun r hr => absurd hr (by simp)
  | some rt0 =>
    have hsome : (∀ r, (some rt0).map RtEntry.route = some r → r.hops ≠ infinity2 →
        r.flags = .up ∧ (ttl = 0 ∨ daddr = s.here ∨ daddr ≠ ipBroadcast)) ↔ (rt0.hops ≠ infinity2 →
        rt0.flags = .up ∧ (ttl = 0 ∨ daddr = s.here ∨ daddr ≠ ipBroadcast)) :=
      ⟨fun h => h rt0.route rfl, fun h r hr => by cases hr; exact h⟩
    rw [hsome]
    dsimp only
    split_ifs with hhops hflags hkept hbroadcast
    · exact iff_of_true ⟨_, _, rfl⟩ fun h => absurd hhops h
    · exact iff_of_false (by simp) fun h => hflags (h hhops).1
    · exact iff_of_true ⟨_, _, rfl⟩ fun _ => ⟨not_not.1 hflags, or_assoc.1 (Or.inl hkept)⟩
    · refine iff_of_false (by simp) fun h => ?_
      rcases (h hhops).2 with hz | hhere | hne
      · exact hkept (Or.inl hz)
      · exact hkept (Or.inr hhere)
      · exact hne hbroadcast
    · exact iff_of_true ⟨_, _, rfl⟩ fun _ => ⟨not_not.1 hflags, Or.inr (Or.inr hbroadcast)⟩

section

variable (hq : ∀ p ∈ s.rqueue, p.daddr ≠ ipBroadcast)
  (hfresh : (s.routeTo rp.dst).Fresher rp.dstSeqno rp.hopCount)
include hq hfresh

variable (now daddr) in
theorem exists_flushReply :
    ∃ s' out, (s.taken now daddr rp).flushReply now rp = some (s', out) := by
  have hacts := acts_taken (m := 0) now daddr hfresh
  have hfind : findKey Route.dst rp.dst (s.taken now daddr rp).routes =
      some ((s.routeTo rp.dst).update rp.dstSeqno rp.hopCount rp.src) := by
    rw [hacts.routes, received_of_fresher hfresh, findKey_updateKey (by exact fun _ h => h), if_pos rfl,
      findKey_ensureRoute, map_some]
  rw [lookup_route] at hfind
  obtain ⟨rt, hrt, heq⟩ := map_eq_some_iff.1 hfind
  have hup : rt.flags = .up := congrArg Route.flags heq
  rw [flushReply]
  split_ifs
  · exact ⟨_, _, rfl⟩
  · exact exists_flush (hacts.queue hq) hrt hup

/-- A reply that is taken is passed on over a route that is up, and not to all neighbours. -/
theorem exists_recvReply_iff :
    (∃ s' out, s.recvReply now daddr ttl rp = some (s', out)) ↔ daddr = s.index ∨
      ∀ r, findKey Route.dst daddr (s.received rp.dst rp.dstSeqno rp.hopCount rp.src) = some r →
        r.hops ≠ infinity2 → r.flags = .up ∧ (ttl = 0 ∨ daddr = s.here ∨ daddr ≠ ipBroadcast) := by
  obtain ⟨s₁, out₁, hs₁⟩ := exists_flushReply now daddr hq hfresh
  have hacts := (acts_taken (m := 0) now daddr hfresh)
  have hquiet := quiet_flushReply (m := 0) hs₁
  have hroutes : s₁.routes = s.received rp.dst rp.dstSeqno rp.hopCount rp.src :=
    hquiet.routes.trans hacts.routes
  rw [recvReply_of_fresher hfresh, hs₁, bind_some]
  by_cases hme : daddr = s.index
  · rw [if_pos (decide_eq_true hme)]
    exact iff_of_true ⟨_, _, rfl⟩ (Or.inl hme)
  · rw [if_neg (by simpa using hme), or_iff_right hme, ← hroutes,
      ← (hquiet.here.trans hacts.here : s₁.here = s.here), ← exists_forwardReply_iff now rp]
    constructor
    · rintro ⟨s', out, h⟩
      obtain ⟨r, hr, -⟩ := map_eq_some_iff.1 h
      exact ⟨r.1, r.2, hr⟩
    · rintro ⟨s', out, h⟩
      exact ⟨_, _, congrArg (Option.map _) h⟩

end

end Reply

section Error

variable {re : RouteError}
variable {r : AodvAgent × List (ℤ × ℕ)}

theorem takeError_eq_some {r' : AodvAgent × List (ℤ × ℕ)} {u : ℤ × ℕ}
    (h : takeError saddr r u = some r') :
    Acts m r.1 r'.1 (updateKey Route.dst u.1 (Route.fail saddr u.2) r.1.routes) ∧
      ∃ l, r'.2 = r.2 ++ l ∧ l.length ≤ 1 ∧ ∀ v ∈ l, v.2 = u.2 := by
  have hkept : (∀ rt, r.1.rtLookup u.1 = some rt → rt.route.fail saddr u.2 = rt.route) →
      Acts m r.1 r.1 (updateKey Route.dst u.1 (Route.fail saddr u.2) r.1.routes) := by
    intro hfail
    rw [updateKey_congr (g := fun r => r), updateKey_id]
    · exact (Quiet.refl m r.1).toActs
    · intro a ha
      rw [lookup_route] at ha
      obtain ⟨rt, hrt, rfl⟩ := map_eq_some_iff.1 ha
      exact hfail rt hrt
  have hnone : ∃ l, r.2 = r.2 ++ l ∧ l.length ≤ 1 ∧ ∀ v ∈ l, v.2 = u.2 :=
    ⟨[], (append_nil _).symm, Nat.zero_le 1, fun v hv => absurd hv not_mem_nil⟩
  rw [takeError] at h
  cases hrt : r.1.rtLookup u.1 with
  | none =>
    rw [hrt] at h hkept
    cases h
    exact ⟨hkept fun rt h => absurd h (by simp), hnone⟩
  | some rt =>
    rw [hrt] at h
    dsimp only at h
    split_ifs at h with hlost hup
    · cases h
      refine ⟨?_, ?_⟩
      · have hcongr : updateKey Route.dst u.1 (Route.fail saddr u.2) r.1.routes =
            updateKey Route.dst u.1 (fun r => { r with seqno := u.2 }.down) r.1.routes := by
          refine updateKey_congr fun a ha => ?_
          rw [lookup_route, hrt] at ha
          cases ha
          exact if_pos hlost
        rw [hcongr]
        exact Acts.writeRt fun rt => RtEntry.rtDown_route { rt with seqno := u.2 }
      · refine ⟨passedOn rt u.2, rfl, ?_, ?_⟩ <;> rw [passedOn] <;> split_ifs <;> simp
    · cases h
      refine ⟨hkept fun rt' hrt' => ?_, hnone⟩
      obtain rfl := some.inj (hrt.symm.trans hrt')
      exact if_neg hlost

variable (saddr) in
theorem exists_takeError (u : ℤ × ℕ) (hlive : Live r.1.routes) :
    ∃ r', takeError saddr r u = some r' := by
  rw [takeError]
  cases hrt : r.1.rtLookup u.1 with
  | none => exact ⟨_, rfl⟩
  | some rt =>
    dsimp only
    split_ifs with hlost hup
    · exact ⟨_, rfl⟩
    · refine absurd (hlive rt.route ?_ hlost.1) hup
      exact mem_map_of_mem (mem_of_findKey hrt).1
    · exact ⟨_, rfl⟩

end Error

section Failure

variable {x : RtEntry × Option (ℤ × ℕ)}

theorem loseRoute_eq_some {rt : RtEntry} (h : loseRoute m id rt = some x) :
    x.1.route = rt.route.lose m id ∧
      ∀ u ∈ x.2, rt.seqno % 2 = 0 ∧ u.2 = (rt.seqno + 1) % m := by
  rw [loseRoute] at h
  split_ifs at h with hlost hup
  · cases h
    refine ⟨?_, fun u hu => ?_⟩
    · rw [Route.lose, if_pos (by exact hlost)]
      exact RtEntry.rtDown_route _
    · obtain rfl := mem_some.1 hu
      exact ⟨hup.2, rfl⟩
  · cases h
    refine ⟨?_, fun u hu => absurd hu (by simp)⟩
    rw [Route.lose, if_neg (by exact hlost)]
    rfl

/-- The routes through a neighbour. -/
def through (s : AodvAgent) (id : ℤ) : List Route :=
  s.routes.filter fun r => r.hops ≠ infinity2 ∧ r.nexthop = id

theorem mem_routes_of_mem (h : rt ∈ s.rtable) : rt.route ∈ s.routes := mem_map_of_mem h

theorem isSome_loseRoute (h : loseRoute m id rt = some x) :
    x.2.isSome = decide (rt.route.hops ≠ infinity2 ∧ rt.route.nexthop = id) := by
  rw [loseRoute] at h
  split_ifs at h with hlost hup
  · cases h
    exact (decide_eq_true hlost).symm
  · cases h
    exact (decide_eq_false hlost).symm

theorem loseRoutes {l : List RtEntry} {l' : List (RtEntry × Option (ℤ × ℕ))}
    (h : l.mapM (loseRoute m id) = some l') :
    (l'.map Prod.fst).map RtEntry.route = (l.map RtEntry.route).map (Route.lose m id) ∧
      (l'.filterMap Prod.snd).length =
        ((l.map RtEntry.route).filter fun r => r.hops ≠ infinity2 ∧ r.nexthop = id).length ∧
      ∀ u ∈ l'.filterMap Prod.snd, ∃ n, n % 2 = 0 ∧ u.2 = (n + 1) % m := by
  have hall := forall₂_of_mapM h
  clear h
  induction hall with
  | nil => exact ⟨rfl, rfl, fun u hu => absurd hu not_mem_nil⟩
  | @cons rt x l l' hx hall ih =>
    obtain ⟨hroutes, hlen, hseq⟩ := ih
    obtain ⟨hroute, hu⟩ := loseRoute_eq_some hx
    have hsome := isSome_loseRoute hx
    refine ⟨?_, ?_, fun u hmem => ?_⟩
    · rw [map_cons, map_cons, map_cons, map_cons, hroute, hroutes]
    · rw [map_cons, filter_cons, filterMap_cons, ← hsome]
      cases x.2 with
      | none => exact hlen
      | some u => exact congrArg (· + 1) hlen
    · obtain ⟨y, hy, hyu⟩ := mem_filterMap.1 hmem
      rcases mem_cons.1 hy with rfl | hy
      · exact ⟨rt.seqno, hu u hyu⟩
      · exact hseq u (mem_filterMap.2 ⟨y, hy, hyu⟩)

/-- An error that a node sends, of routes that it has lost. -/
inductive Reports (m : ℕ) (i : ℤ) : Sent → Prop
  | intro (re : RouteError) (h : ∀ u ∈ re.unreachable, ∃ n, n % 2 = 0 ∧ u.2 = (n + 1) % m) :
      Reports m i (.aodv none ⟨i, ipBroadcast, 1, .error re⟩)

theorem acts_handleLinkFailure (h : s.handleLinkFailure m id = some (s', out)) :
    Acts m s s' (s.routes.map (Route.lose m id)) ∧ (∀ x ∈ out, Reports m s.index x) ∧
      (s.through id).length ≤ aodvMaxErrors := by
  obtain ⟨l, hl, h⟩ := bind_eq_some_iff.1 h
  obtain ⟨hroutes, hlen, hseq⟩ := loseRoutes hl
  dsimp only at h
  split at h
  · next hfits =>
    cases h
    refine ⟨⟨rfl, rfl, hroutes, fun h => h, fun h => h, fun _ => le_rfl⟩, fun x hx => ?_, ?_⟩
    · split_ifs at hx
      · obtain rfl := mem_singleton.1 hx
        exact Reports.intro _ hseq
      · cases hx
    · rw [through, routes, ← hlen]
      exact hfits
  · cases h

theorem exists_handleLinkFailure (hlive : Live s.routes) (hfits : (s.through id).length ≤ aodvMaxErrors) :
    ∃ s' out, s.handleLinkFailure m id = some (s', out) := by
  have hsome : ∀ rt ∈ s.rtable, ∃ x, loseRoute m id rt = some x := by
    intro rt hrt
    rw [loseRoute]
    split_ifs with hlost hup
    · exact ⟨_, rfl⟩
    · exact absurd (hlive rt.route (mem_routes_of_mem hrt) hlost.1) hup
    · exact ⟨_, rfl⟩
  obtain ⟨l, hl⟩ := exists_mapM hsome
  obtain ⟨-, hlen, -⟩ := loseRoutes hl
  rw [through, routes, ← hlen] at hfits
  rw [handleLinkFailure, hl, bind_some]
  rw [dif_pos hfits]
  exact ⟨_, _, rfl⟩

theorem acts_nbDelete (h : s.nbDelete m id = some (s', out)) :
    Acts m s s' (s.routes.map (Route.lose m id)) ∧ (∀ x ∈ out, Reports m s.index x) ∧
      (s.through id).length ≤ aodvMaxErrors := by
  obtain ⟨s₁, hs₁, h⟩ := bind_eq_some_iff.1 h
  have hquiet := quiet_raiseSeqno (m := m) hs₁
  obtain ⟨hacts, hsent, hfits⟩ := acts_handleLinkFailure h
  have hroutes : AodvAgent.routes { s₁ with nblist := eraseKey Neighbor.addr id s₁.nblist } = s.routes :=
    hquiet.routes
  rw [through, hroutes] at hfits
  rw [hroutes] at hacts
  have hacts₁ : Acts m s { s₁ with nblist := eraseKey Neighbor.addr id s₁.nblist } s.routes :=
    ⟨hquiet.index, hquiet.here, hquiet.routes, hquiet.queue, hquiet.parity, hquiet.seqno⟩
  exact ⟨hacts₁.trans hacts, hacts₁.index ▸ hsent, hfits⟩

theorem exists_nbDelete (hm : 2 ∣ m) (hs : s.seqno % 2 = 0) (hlive : Live s.routes)
    (hfits : (s.through id).length ≤ aodvMaxErrors) : ∃ s' out, s.nbDelete m id = some (s', out) := by
  obtain ⟨s₁, hs₁⟩ := exists_raiseSeqno hm hs
  have hroutes : AodvAgent.routes { s₁ with nblist := eraseKey Neighbor.addr id s₁.nblist } = s.routes :=
    (quiet_raiseSeqno (m := m) hs₁).routes
  rw [nbDelete, hs₁, bind_some]
  refine exists_handleLinkFailure ?_ ?_
  · rw [hroutes]
    exact hlive
  · rw [through, hroutes]
    exact hfits

end Failure

section Error

variable {re : RouteError}

/-- The routes after an error. -/
def failed (s : AodvAgent) (saddr : ℤ) (l : List (ℤ × ℕ)) : List Route :=
  l.foldl (fun l u => updateKey Route.dst u.1 (Route.fail saddr u.2) l) s.routes

theorem acts_takeErrors {l : List (ℤ × ℕ)} {r r' : AodvAgent × List (ℤ × ℕ)}
    (h : l.foldlM (takeError saddr) r = some r') :
    Acts m r.1 r'.1 (r.1.failed saddr l) ∧ r'.2.length ≤ r.2.length + l.length ∧
      ∀ v ∈ r'.2, v ∈ r.2 ∨ ∃ u ∈ l, v.2 = u.2 := by
  induction l generalizing r with
  | nil =>
    obtain rfl : r = r' := some.inj h
    exact ⟨(Quiet.refl m _).toActs, le_rfl, fun v hv => Or.inl hv⟩
  | cons u l ih =>
    obtain ⟨r₁, hr₁, h⟩ := bind_eq_some_iff.1 h
    obtain ⟨hacts, l₁, hl₁, hlen, hseq⟩ := takeError_eq_some (m := m) hr₁
    obtain ⟨hacts', hlen', hseq'⟩ := ih h
    refine ⟨?_, ?_, fun v hv => ?_⟩
    · rw [failed, hacts.routes] at hacts'
      exact hacts.trans hacts'
    · rw [hl₁, length_append] at hlen'
      rw [length_cons]
      omega
    · rcases hseq' v hv with hv | ⟨u', hu', heq⟩
      · rw [hl₁] at hv
        rcases mem_append.1 hv with hv | hv
        · exact Or.inl hv
        · exact Or.inr ⟨u, mem_cons_self, hseq v hv⟩
      · exact Or.inr ⟨u', mem_cons_of_mem _ hu', heq⟩

theorem acts_recvError (h : s.recvError saddr re = some (s', out)) :
    Acts m s s' (s.failed saddr re.unreachable) ∧ ∀ x ∈ out, ∃ re' : RouteError,
      x = .aodv none ⟨s.index, ipBroadcast, 1, .error re'⟩ ∧
        ∀ v ∈ re'.unreachable, ∃ u ∈ re.unreachable, v.2 = u.2 := by
  obtain ⟨r, hr, h⟩ := bind_eq_some_iff.1 h
  obtain ⟨hacts, -, hseq⟩ := acts_takeErrors (m := m) hr
  split at h
  · next hfits =>
    cases h
    refine ⟨hacts, fun x hx => ?_⟩
    split_ifs at hx
    · obtain rfl := mem_singleton.1 hx
      refine ⟨⟨r.2, hfits⟩, ?_, fun v hv => (hseq v hv).resolve_left not_mem_nil⟩
      rw [← hacts.index]
    · cases hx
  · cases h

variable (saddr) in
theorem exists_recvError (hlive : Live s.routes) (re : RouteError) :
    ∃ s' out, s.recvError saddr re = some (s', out) := by
  have hall : ∀ (l : List (ℤ × ℕ)) (r : AodvAgent × List (ℤ × ℕ)), Live r.1.routes →
      ∃ r', l.foldlM (takeError saddr) r = some r' := by
    intro l
    induction l with
    | nil => exact fun r _ => ⟨r, rfl⟩
    | cons u l ih =>
      intro r hr
      obtain ⟨r₁, hr₁⟩ := exists_takeError saddr u hr
      obtain ⟨r', hr'⟩ := ih r₁ ((takeError_eq_some (m := 0) hr₁).1.routes ▸ hr.fail u.1 saddr u.2)
      exact ⟨r', bind_eq_some_iff.2 ⟨r₁, hr₁, hr'⟩⟩
  obtain ⟨r, hr⟩ := hall re.unreachable (s, []) hlive
  have hlen : r.2.length ≤ aodvMaxErrors :=
    ((acts_takeErrors (m := 0) hr).2.1.trans_eq (Nat.zero_add _)).trans re.fits
  rw [recvError, hr, bind_some, dif_pos hlen]
  exact ⟨_, _, rfl⟩

end Error

/-- A route error for a destination that is down. -/
inductive Refuses (s : AodvAgent) : Sent → Prop
  | intro {r : Route} (hr : r = .new r.dst ∨ r ∈ s.routes) (hdown : r.flags = .down) :
      Refuses s (.aodv none ⟨s.index, ipBroadcast, 1, .error (.one r.dst r.seqno)⟩)

theorem routeTo_new_or_mem (s : AodvAgent) (d : ℤ) :
    s.routeTo d = .new (s.routeTo d).dst ∨ s.routeTo d ∈ s.routes := by
  rw [routeTo]
  cases h : findKey Route.dst d s.routes with
  | none => exact Or.inl rfl
  | some r => exact Or.inr (mem_of_findKey h).1

theorem acts_rtResolve (hp : p.daddr ≠ ipBroadcast) (h : s.rtResolve m now p = some (s', out)) :
    Acts m s s' (ensureRoute p.daddr s.routes) ∧ ∀ x ∈ out, Routine m s.index x ∨ s.Refuses x := by
  have hensure := Acts.rtEnsure m s p.daddr
  obtain ⟨rt, hrt, heq⟩ := lookup_rtEnsure s p.daddr
  have hquiet : ∀ s₁ s' : AodvAgent, ∀ out : List Sent, Acts m s s₁ (ensureRoute p.daddr s.routes) →
      Quiet m s₁ s' out →
      Acts m s s' (ensureRoute p.daddr s.routes) ∧ ∀ x ∈ out, Routine m s.index x ∨ s.Refuses x :=
    fun s₁ s' out h₁ h₂ => ⟨h₁.routes ▸ h₁.trans h₂.toActs,
      fun x hx => Or.inl (h₁.index ▸ h₂.sent x hx)⟩
  have henque : Acts m s { s.rtEnsure p.daddr with rqueue := enque now p (s.rtEnsure p.daddr).rqueue }
      (ensureRoute p.daddr s.routes) :=
    ⟨hensure.index, hensure.here, hensure.routes, fun hq => enque_ne_broadcast (hensure.queue hq) hp,
      hensure.parity, hensure.seqno⟩
  rw [rtResolve, hrt] at h
  dsimp only at h
  split_ifs at h with hup hhops hsaddr hrepair
  · exact hquiet _ _ _ hensure (quiet_forward h)
  · exact hquiet _ _ _ henque (quiet_sendRequest h)
  · cases h
    exact hquiet _ _ _ henque (Quiet.refl m _)
  · cases h
    refine ⟨hensure, fun x hx => Or.inr ?_⟩
    obtain rfl := mem_singleton.1 hx
    rw [hensure.index]
    refine Refuses.intro (r := rt.route) (heq ▸ routeTo_new_or_mem s p.daddr) ?_
    cases hflags : rt.flags with
    | down => exact hflags
    | up => exact absurd hflags hup
    | inRepair => exact absurd hflags hrepair

variable (now) in
theorem exists_rtResolve (hm : 2 ∣ m) (hs : s.seqno % 2 = 0) (hp : p.daddr ≠ ipBroadcast)
    (hup : (s.routeTo p.daddr).flags = .up → (s.routeTo p.daddr).hops ≠ infinity2) :
    ∃ s' out, s.rtResolve m now p = some (s', out) := by
  obtain ⟨rt, hrt, heq⟩ := lookup_rtEnsure s p.daddr
  have hdst : rt.dst = p.daddr := (mem_of_findKey hrt).2
  rw [← heq] at hup
  rw [rtResolve, hrt]
  dsimp only
  split_ifs with h₁ h₂
  · exact absurd h₂ (hup h₁)
  · exact exists_forward now hp (hdst ▸ hrt) h₁
  · exact exists_sendRequest now hm ((Acts.rtEnsure m s p.daddr).parity hs) (hdst ▸ hrt) hup
  · exact ⟨_, _, rfl⟩
  · exact ⟨_, _, rfl⟩

theorem quiet_broadcast (h : s.broadcast p = some (s', out)) : Quiet m s s' out := by
  rw [broadcast] at h
  split_ifs at h
  · cases h
    exact Quiet.refl m s
  · cases h
    exact Quiet.refl m s
  · cases h
    exact { Quiet.refl m s with sent := fun x hx => mem_singleton.1 hx ▸ Routine.data _ _ }

theorem exists_broadcast (hp : p.daddr = ipBroadcast) : ∃ s' out, s.broadcast p = some (s', out) := by
  rw [broadcast]
  split_ifs with h₁ h₂ h₃
  · exact ⟨_, _, rfl⟩
  · exact ⟨_, _, rfl⟩
  · exact absurd hp h₃
  · exact ⟨_, _, rfl⟩

/-- A data packet is dropped, sent to all neighbours, or sent over the route to its destination. -/
theorem recv_cases (m : ℕ) (s : AodvAgent) (now : ℚ) (p : DataPacket) :
    s.recv m now p = some (s, []) ∨ ∃ p' : DataPacket, p'.daddr = p.daddr ∧
      s.recv m now p = if p'.daddr ≠ ipBroadcast then s.rtResolve m now p' else s.broadcast p' := by
  rw [recv]
  by_cases hmine : p.saddr = s.index ∧ p.numForwards = 0
  · rw [if_pos hmine]
    refine Or.inr ⟨_, ?_, rfl⟩
    split_ifs <;> rfl
  · rw [if_neg hmine]
    by_cases hloop : p.saddr = s.index
    · exact Or.inl (if_pos hloop)
    · rw [if_neg hloop]
      by_cases httl : p.ttl - 1 = 0
      · exact Or.inl (if_pos httl)
      · rw [if_neg httl]
        exact Or.inr ⟨{ p with ttl := p.ttl - 1 }, rfl, rfl⟩

theorem acts_localRtRepair (hp : p.daddr ≠ ipBroadcast)
    (h : s.localRtRepair m now d p = some (s', out)) :
    Acts m s s' (updateKey Route.dst d (fun r => { r with flags := .inRepair }) s.routes) ∧
      ∀ x ∈ out, Routine m s.index x := by
  obtain ⟨r, hr, heq⟩ := map_eq_some_iff.1 h
  cases heq
  have henque : Acts m s { s with rqueue := enque now p s.rqueue } s.routes :=
    ⟨rfl, rfl, rfl, fun hq => enque_ne_broadcast hq hp, fun h => h, fun _ => le_rfl⟩
  have hw : Acts m s ({ s with rqueue := enque now p s.rqueue }.writeRt d
      fun rt => { rt with flags := .inRepair })
      (updateKey Route.dst d (fun r => { r with flags := .inRepair }) s.routes) :=
    henque.trans (Acts.writeRt fun _ => rfl)
  have hquiet := quiet_sendRequest (m := m) hr
  have hacts := hw.routes ▸ hw.trans hquiet.toActs
  exact ⟨⟨hacts.index, hacts.here, hacts.routes, hacts.queue, hacts.parity, hacts.seqno⟩,
    hw.index ▸ hquiet.sent⟩

variable (now p) in
theorem exists_localRtRepair (hm : 2 ∣ m) (hs : s.seqno % 2 = 0) (hrt : s.rtLookup d = some rt) :
    ∃ s' out, s.localRtRepair m now d p = some (s', out) := by
  have hlookup : (({ s with rqueue := enque now p s.rqueue }.writeRt d
      fun rt => { rt with flags := .inRepair }).rtLookup d) = some { rt with flags := .inRepair } := by
    rw [rtLookup, AodvAgent.writeRt, findKey_updateKey (by exact fun _ h => h), if_pos rfl]
    exact congrArg (Option.map _) hrt
  obtain ⟨s', out, hs'⟩ := exists_sendRequest now hm
    (s := { s with rqueue := enque now p s.rqueue }.writeRt d fun rt => { rt with flags := .inRepair })
    hs hlookup (by exact fun hup => absurd hup (by simp))
  rw [localRtRepair]
  rw [hs']
  exact ⟨_, _, rfl⟩

theorem acts_localRepairTimeout (m : ℕ) (s : AodvAgent) (d : ℤ) :
    Acts m s (s.localRepairTimeout d)
      (if d ∈ s.lrtimers then updateKey Route.dst d Route.giveUp s.routes else s.routes) := by
  rw [localRepairTimeout]
  split_ifs
  · have hdone : Acts m s { s with lrtimers := s.lrtimers.erase d } s.routes :=
      ⟨rfl, rfl, rfl, fun h => h, fun h => h, fun _ => le_rfl⟩
    refine hdone.trans (Acts.writeRt fun rt => ?_)
    rw [Route.giveUp]
    change _ = if rt.flags ≠ .up then _ else _
    split_ifs
    · exact rt.rtDown_route
    · rfl
  · exact (Quiet.refl m s).toActs

/-- What the expiry of a route makes of the entry. -/
def expired (m : ℕ) (r : Route) : Route := { r with seqno := (r.seqno + 1) % m }.down

theorem acts_purgeRoute (h : s.purgeRoute m now d = some (s', out)) :
    (Quiet m s s' out ∨ out = [] ∧ (s.routeTo d).flags = .up ∧
      ((s.routeTo d).seqno + 1) % m % 2 = 1 ∧
        Acts m s s' (updateKey Route.dst d (expired m) s.routes)) := by
  rw [purgeRoute] at h
  cases hrt : s.rtLookup d with
  | none =>
    rw [hrt] at h
    cases h
  | some rt =>
    have hroute : s.routeTo d = rt.route := by
      rw [routeTo, lookup_route, hrt]
      rfl
    rw [hrt] at h
    dsimp only at h
    split_ifs at h with h₁ h₂ h₃ h₄ h₅
    · cases h
      obtain ⟨-, hodd⟩ := not_or.1 h₂
      refine Or.inr ⟨rfl, ?_, ?_, ?_⟩
      · rw [hroute]
        exact h₁.1
      · rw [hroute]
        exact Nat.mod_two_ne_zero.1 hodd
      · have hw : Acts m s (s.writeRt d fun rt => { rt with seqno := (rt.seqno + 1) % m }.rtDown)
            (updateKey Route.dst d (expired m) s.routes) := Acts.writeRt fun rt => RtEntry.rtDown_route _
        exact ⟨hw.index, hw.here, hw.routes, fun hq p hp => hq p (mem_of_mem_leftBy hp), hw.parity,
          hw.seqno⟩
    · exact Or.inl (quiet_flush h)
    · exact Or.inl (quiet_sendRequest h)
    · cases h
      exact Or.inl (Quiet.refl m s)

variable (now) in
theorem exists_purgeRoute (hm : 2 ∣ m) (hs : s.seqno % 2 = 0)
    (hq : ∀ p ∈ s.rqueue, p.daddr ≠ ipBroadcast) {r : Route}
    (hr : findKey Route.dst d s.routes = some r)
    (hup : r.flags = .up → r.hops ≠ infinity2 ∧ r.seqno % 2 = 0) :
    ∃ s' out, s.purgeRoute m now d = some (s', out) := by
  rw [lookup_route] at hr
  obtain ⟨rt, hrt, rfl⟩ := map_eq_some_iff.1 hr
  rw [purgeRoute, hrt]
  dsimp only
  split_ifs with h₁ h₂ h₃ h₄ h₅
  · obtain ⟨hhops, heven⟩ := hup h₁.1
    refine absurd h₂ (not_or.2 ⟨hhops, ?_⟩)
    rw [Nat.mod_mod_of_dvd _ hm]
    have : rt.seqno % 2 = 0 := heven
    omega
  · exact ⟨_, _, rfl⟩
  · exact absurd h₄ (hup h₃).1
  · exact exists_flush hq hrt h₃
  · exact exists_sendRequest now hm hs hrt fun h => absurd h h₃
  · exact ⟨_, _, rfl⟩

theorem acts_recvHello (h : s.recvHello m now d = some s') : Acts m s s' s.routes := by
  rw [recvHello] at h
  split at h
  · have hquiet := quiet_raiseSeqno (m := m) h
    exact ⟨hquiet.index, hquiet.here, hquiet.routes, hquiet.queue, hquiet.parity, hquiet.seqno⟩
  · cases h
    exact ⟨rfl, rfl, rfl, fun h => h, fun h => h, fun _ => le_rfl⟩

theorem exists_recvHello (hm : 2 ∣ m) (hs : s.seqno % 2 = 0) (now : ℚ) (d : ℤ) :
    ∃ s', s.recvHello m now d = some s' := by
  rw [recvHello]
  split
  · exact exists_raiseSeqno hm hs
  · exact ⟨_, rfl⟩

end AodvAgent

end Ns2.Aodv
