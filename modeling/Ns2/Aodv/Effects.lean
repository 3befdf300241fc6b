import Ns2.Aodv.Agent

/-! What the handlers of AODV leave of the routes of a node, and the requests that it sends by itself. -/

namespace Ns2.Aodv

open List

/-- An entry without its timers and lists. -/
structure Route where
  dst : ℤ
  seqno : ℕ
  hops : ℕ
  nexthop : ℤ
  flags : RtFlags
deriving DecidableEq

def RtEntry.route (rt : RtEntry) : Route := ⟨rt.dst, rt.seqno, rt.hops, rt.nexthop, rt.flags⟩

def AodvAgent.routes (s : AodvAgent) : List Route := s.rtable.map RtEntry.route

namespace Route

def new (d : ℤ) : Route := ⟨d, 0, infinity2, 0, .down⟩

def Fresher (r : Route) (seqnum hopCount : ℕ) : Prop :=
  r.seqno < seqnum ∨ r.seqno = seqnum ∧ hopCount < r.hops

instance (r : Route) (seqnum hopCount : ℕ) : Decidable (r.Fresher seqnum hopCount) :=
  inferInstanceAs (Decidable (_ ∨ _))

def update (seqnum metric : ℕ) (nexthop : ℤ) (r : Route) : Route :=
  { r with seqno := seqnum, hops := metric, flags := .up, nexthop := nexthop }

def down (r : Route) : Route :=
  if r.flags = .down then r else { r with hops := infinity2, flags := .down, nexthop := 0 }

/-- What a received route makes of the entry. -/
def receive (seqnum metric : ℕ) (nexthop : ℤ) (r : Route) : Route :=
  if r.Fresher seqnum metric then r.update seqnum metric nexthop else r

/-- A route through a lost neighbour. -/
def lose (m : ℕ) (id : ℤ) (r : Route) : Route :=
  if r.hops ≠ infinity2 ∧ r.nexthop = id then { r with seqno := (r.seqno + 1) % m }.down else r

/-- What the timeout of a local repair makes of the entry. -/
def giveUp (r : Route) : Route := if r.flags ≠ .up then r.down else r

/-- What an unreachable destination makes of the entry. -/
def fail (saddr : ℤ) (n : ℕ) (r : Route) : Route :=
  if r.hops ≠ infinity2 ∧ r.nexthop = saddr ∧ r.seqno ≤ n then { r with seqno := n }.down else r

@[simp] theorem update_dst (seqnum metric : ℕ) (nexthop : ℤ) (r : Route) :
    (r.update seqnum metric nexthop).dst = r.dst := rfl

@[simp] theorem down_dst (r : Route) : r.down.dst = r.dst := by
  rw [down]
  split_ifs <;> rfl

@[simp] theorem receive_dst (seqnum metric : ℕ) (nexthop : ℤ) (r : Route) :
    (r.receive seqnum metric nexthop).dst = r.dst := by
  rw [receive]
  split_ifs <;> rfl

@[simp] theorem lose_dst (m : ℕ) (id : ℤ) (r : Route) : (r.lose m id).dst = r.dst := by
  rw [lose]
  split_ifs
  · exact down_dst _
  · rfl

@[simp] theorem fail_dst (saddr : ℤ) (n : ℕ) (r : Route) : (r.fail saddr n).dst = r.dst := by
  rw [fail]
  split_ifs
  · exact down_dst _
  · rfl

end Route

@[simp] theorem RtEntry.rtDown_route (rt : RtEntry) : rt.rtDown.route = rt.route.down := by
  rw [rtDown, Route.down]
  split_ifs <;> first | rfl | contradiction

@[simp] theorem RtEntry.pcInsert_route (rt : RtEntry) (id : ℤ) : (rt.pcInsert id).route = rt.route := by
  rw [pcInsert]
  split_ifs <;> rfl

theorem RtEntry.nextRequest_route (rt : RtEntry) (now : ℚ) :
    (rt.ringSearch.nextRequest now).route = rt.route := by
  rw [ringSearch]
  split_ifs <;> rfl

/-- The routes, one for the destination added when there is none. -/
def ensureRoute (d : ℤ) (l : List Route) : List Route :=
  if (findKey Route.dst d l).isSome then l else .new d :: l

/-- Routes with a finite hop count are up, with an even sequence number. -/
def Live (l : List Route) : Prop := ∀ r ∈ l, r.hops ≠ infinity2 → r.flags = .up ∧ r.seqno % 2 = 0

theorem Route.hops_down {r : Route} (h : r.flags = .up) : r.down.hops = infinity2 := by
  rw [down, if_neg (by rw [h]; exact RtFlags.noConfusion)]

theorem Live.fail {l : List Route} (h : Live l) (d saddr : ℤ) (n : ℕ) :
    Live (updateKey Route.dst d (Route.fail saddr n) l) := by
  intro r hr hhops
  rcases of_mem_updateKey hr with hr | ⟨a, ha, -, rfl⟩
  · exact h r hr hhops
  · rw [Route.fail] at hhops ⊢
    split_ifs at hhops ⊢ with hlost
    · exact absurd (Route.hops_down (r := { a with seqno := n }) (h a ha hlost.1).1) hhops
    · exact h a ha hhops

namespace AodvAgent

variable {m : ℕ} {s s' s'' : AodvAgent} {now : ℚ} {d id saddr : ℤ} {p : DataPacket}
  {out out' : List Sent} {rt : RtEntry}
variable {f : RtEntry → RtEntry} {q : List DataPacket}
variable {g : Route → Route} {ps : List DataPacket}

theorem lookup_route (s : AodvAgent) (d : ℤ) :
    findKey Route.dst d s.routes = (s.rtLookup d).map RtEntry.route := by
  rw [routes, rtLookup]
  induction s.rtable with
  | nil => rfl
  | cons rt l ih =>
    rw [map_cons, findKey_cons, findKey_cons, ih]
    change (if rt.dst = d then _ else _) = _
    split_ifs <;> rfl

theorem routes_writeRt (hf : ∀ rt, (f rt).route = g rt.route) :
    (s.writeRt id f).routes = updateKey Route.dst id g s.routes := by
  rw [writeRt, routes, routes]
  induction s.rtable with
  | nil => rfl
  | cons rt l ih =>
    rw [updateKey, map_cons, updateKey]
    change _ = if rt.dst = id then _ else _
    split_ifs
    · rw [map_cons, hf]
    · rw [map_cons, ih]

theorem routes_rtEnsure : (s.rtEnsure d).routes = ensureRoute d s.routes := by
  rw [rtEnsure, ensureRoute, lookup_route]
  cases s.rtLookup d with
  | none => rfl
  | some rt => rfl

/-- What a node sends by itself: a data packet, or a request for a route. -/
inductive Routine (m : ℕ) (i : ℤ) : Sent → Prop
  | data (nextHop : Option ℤ) (p : DataPacket) : Routine m i (.data nextHop p)
  | request {ttl : ℤ} {rq : RouteRequest} (httl : 0 < ttl ∧ ttl ≤ networkDiameter)
      (hhops : rq.hopCount = 1) (hsrc : rq.src = i) (heven : rq.srcSeqno % 2 = 0)
      (hpos : m = 0 → 0 < rq.srcSeqno) :
      Routine m i (.aodv none ⟨i, ipBroadcast, ttl, .request rq⟩)

/-- An act that leaves the routes `l`. -/
structure Acts (m : ℕ) (s s' : AodvAgent) (l : List Route) : Prop where
  index : s'.index = s.index
  here : s'.here = s.here
  routes : s'.routes = l
  queue : (∀ p ∈ s.rqueue, p.daddr ≠ ipBroadcast) → ∀ p ∈ s'.rqueue, p.daddr ≠ ipBroadcast
  parity : s.seqno % 2 = 0 → s'.seqno % 2 = 0
  seqno : m = 0 → s.seqno ≤ s'.seqno

theorem Acts.trans {l l' : List Route} (h : Acts m s s' l) (h' : Acts m s' s'' l') : Acts m s s'' l' :=
  ⟨h'.index.trans h.index, h'.here.trans h.here, h'.routes,
    fun hq => h'.queue (h.queue hq), fun hp => h'.parity (h.parity hp),
    fun hm => (h.seqno hm).trans (h'.seqno hm)⟩

theorem Acts.writeRt (hf : ∀ rt, (f rt).route = g rt.route) :
    Acts m s (s.writeRt id f) (updateKey Route.dst id g s.routes) :=
  ⟨rfl, rfl, routes_writeRt hf, fun h => h, fun h => h, fun _ => le_rfl⟩

theorem Acts.rtEnsure (m : ℕ) (s : AodvAgent) (d : ℤ) : Acts m s (s.rtEnsure d) (ensureRoute d s.routes) := by
  have hroutes := routes_rtEnsure (s := s) (d := d)
  rw [AodvAgent.rtEnsure] at hroutes ⊢
  split at hroutes <;> exact ⟨rfl, rfl, hroutes, fun h => h, fun h => h, fun _ => le_rfl⟩

/-- The routes stay as they are, and nothing is sent but by the node itself. -/
structure Quiet (m : ℕ) (s s' : AodvAgent) (out : List Sent) : Prop extends Acts m s s' s.routes where
  sent : ∀ x ∈ out, Routine m s.index x

theorem Quiet.refl (m : ℕ) (s : AodvAgent) : Quiet m s s [] :=
  ⟨⟨rfl, rfl, rfl, fun h => h, fun h => h, fun _ => le_rfl⟩, fun _ hx => absurd hx not_mem_nil⟩

theorem Quiet.trans (h : Quiet m s s' out) (h' : Quiet m s' s'' out') : Quiet m s s'' (out ++ out') := by
  refine ⟨h.routes ▸ h.toActs.trans h'.toActs, fun x hx => ?_⟩
  rcases mem_append.1 hx with hx | hx
  · exact h.sent x hx
  · exact h.index ▸ h'.sent x hx

variable (id) in
theorem Quiet.writeRt (hf : ∀ rt, (f rt).route = rt.route) : Quiet m s (s.writeRt id f) [] := by
  have hacts : Acts m s (s.writeRt id f) (updateKey Route.dst id (fun r => r) s.routes) := Acts.writeRt hf
  rw [updateKey_id] at hacts
  exact ⟨hacts, fun _ hx => absurd hx not_mem_nil⟩

theorem Quiet.queued (hq : ∀ p ∈ q, p ∈ s.rqueue) : Quiet m s { s with rqueue := q } [] :=
  ⟨⟨rfl, rfl, rfl, fun h p hp => h p (hq p hp), fun h => h, fun _ => le_rfl⟩,
    fun _ hx => absurd hx not_mem_nil⟩

theorem mem_of_mem_leftBy (hp : p ∈ leftBy now d q) : p ∈ q :=
  (mem_filter.1 (mem_filter.1 hp).1).1

theorem of_mem_buffered (hq : ∀ p ∈ q, p.daddr ≠ ipBroadcast) (hp : p ∈ buffered now d q) :
    p.daddr = d ∧ p.daddr ≠ ipBroadcast := by
  obtain ⟨hp, hd⟩ := mem_filter.1 hp
  exact ⟨by simpa using hd, hq p (mem_filter.1 hp).1⟩

theorem enque_ne_broadcast (hq : ∀ p ∈ q, p.daddr ≠ ipBroadcast) (hp : p.daddr ≠ ipBroadcast) :
    ∀ p' ∈ enque now p q, p'.daddr ≠ ipBroadcast := by
  intro p' hp'
  rw [enque] at hp'
  rcases mem_append.1 hp' with hp' | hp'
  · split_ifs at hp'
    · exact hq p' (mem_filter.1 (mem_of_mem_tail hp')).1
    · exact hq p' (mem_filter.1 hp').1
  · obtain rfl := mem_singleton.1 hp'
    exact hp

theorem quiet_forward (h : s.forward now d p = some (s', out)) : Quiet m s s' out := by
  rw [forward] at h
  split_ifs at h
  · cases h
    exact Quiet.refl m s
  · cases h
    exact Quiet.refl m s
  · cases hrt : s.rtLookup d with
    | none =>
      rw [hrt] at h
      cases h
    | some rt =>
      rw [hrt] at h
      dsimp only at h
      split_ifs at h
      cases h
      have hw := Quiet.writeRt (m := m) (s := s) d
        (f := fun rt => { rt with expire := now + activeRouteTimeout }) fun _ => rfl
      exact { hw with sent := fun x hx => mem_singleton.1 hx ▸ Routine.data _ _ }

variable (now) in
theorem exists_forward (hp : p.daddr ≠ ipBroadcast) (hrt : s.rtLookup d = some rt) (hup : rt.flags = .up) :
    ∃ s' out, s.forward now d p = some (s', out) := by
  rw [forward]
  split_ifs
  · exact ⟨_, _, rfl⟩
  · exact ⟨_, _, rfl⟩
  · rw [hrt]
    dsimp only
    rw [if_neg (not_or.2 ⟨not_not.2 hup, hp⟩)]
    exact ⟨_, _, rfl⟩

theorem quiet_forwardAll (h : s.forwardAll now d ps = some (s', out)) : Quiet m s s' out := by
  have hkeep : ∀ (p : DataPacket) (r r' : AodvAgent × List Sent),
      ((r.1.forward now d p).map fun r' => (r'.1, r.2 ++ r'.2)) = some r' →
      Quiet m s r.1 r.2 → Quiet m s r'.1 r'.2 := by
    intro p r r' hr hquiet
    obtain ⟨r'', hr'', rfl⟩ := Option.map_eq_some_iff.1 hr
    exact hquiet.trans (quiet_forward hr'')
  exact foldlM_keeps (Q := fun r => Quiet m s r.1 r.2) hkeep h (Quiet.refl m s)

theorem Quiet.lookup (h : Quiet m s s' out) (hrt : s.rtLookup d = some rt) :
    ∃ rt', s'.rtLookup d = some rt' ∧ rt'.route = rt.route := by
  have hmap := lookup_route s' d
  rw [h.routes, lookup_route, hrt] at hmap
  obtain ⟨rt', hrt', heq⟩ := Option.map_eq_some_iff.1 hmap.symm
  exact ⟨rt', hrt', heq⟩

theorem exists_forwardAll (hps : ∀ p ∈ ps, p.daddr ≠ ipBroadcast) (hrt : s.rtLookup d = some rt)
    (hup : rt.flags = .up) : ∃ s' out, s.forwardAll now d ps = some (s', out) := by
  rw [forwardAll]
  generalize ([] : List Sent) = out
  induction ps generalizing s rt out with
  | nil => exact ⟨s, out, rfl⟩
  | cons p ps ih =>
    obtain ⟨s₁, out₁, hs₁⟩ := exists_forward now (hps p mem_cons_self) hrt hup
    obtain ⟨rt₁, hrt₁, heq⟩ := (quiet_forward (m := 0) hs₁).lookup hrt
    have hup₁ : rt₁.flags = .up := (congrArg Route.flags heq).trans hup
    rw [foldlM_cons]
    rw [hs₁]
    exact ih (fun p hp => hps p (mem_cons_of_mem _ hp)) hrt₁ hup₁ _

theorem quiet_flush (h : s.flush now d = some (s', out)) : Quiet m s s' out := by
  have hq : Quiet m s { s with rqueue := leftBy now d s.rqueue } [] :=
    Quiet.queued fun p hp => mem_of_mem_leftBy hp
  exact hq.trans (quiet_forwardAll h)

theorem exists_flush (hq : ∀ p ∈ s.rqueue, p.daddr ≠ ipBroadcast) (hrt : s.rtLookup d = some rt)
    (hup : rt.flags = .up) : ∃ s' out, s.flush now d = some (s', out) :=
  exists_forwardAll (s := { s with rqueue := leftBy now d s.rqueue })
    (fun _ hp => (of_mem_buffered hq hp).2) hrt hup

theorem quiet_raiseSeqno (h : s.raiseSeqno m = some s') : Quiet m s s' [] := by
  rw [raiseSeqno] at h
  split_ifs at h with heven
  cases h
  refine ⟨⟨rfl, rfl, rfl, fun h => h, fun _ => heven, fun hm => ?_⟩,
    fun _ hx => absurd hx not_mem_nil⟩
  subst hm
  dsimp only
  rw [Nat.mod_zero]
  omega

theorem exists_raiseSeqno (hm : 2 ∣ m) (hs : s.seqno % 2 = 0) : ∃ s', s.raiseSeqno m = some s' := by
  rw [raiseSeqno, if_pos]
  · exact ⟨_, rfl⟩
  · rw [Nat.mod_mod_of_dvd _ hm]
    omega

theorem ringSearch_ttl (rt : RtEntry) :
    (0 : ℤ) < rt.ringSearch.reqLastTtl ∧ (rt.ringSearch.reqLastTtl : ℤ) ≤ networkDiameter := by
  have h : 0 < rt.ringSearch.reqLastTtl ∧ rt.ringSearch.reqLastTtl ≤ networkDiameter := by
    rw [RtEntry.ringSearch]
    unfold ttlStart ttlThreshold ttlIncrement networkDiameter
    split_ifs <;> dsimp only <;> omega
  omega

theorem quiet_sendRequest (h : s.sendRequest m now d = some (s', out)) : Quiet m s s' out := by
  rw [sendRequest] at h
  cases hrt : s.rtLookup d with
  | none =>
    rw [hrt] at h
    cases h
  | some rt =>
    rw [hrt] at h
    dsimp only at h
    split_ifs at h
    · cases h
      exact Quiet.refl m s
    · cases h
      exact Quiet.refl m s
    · cases h
      have hw := Quiet.writeRt (m := m) (s := s) d
        (f := fun rt => { rt with reqTimeout := now + maxRreqTimeout, reqCnt := 0 }) fun _ => rfl
      exact hw.trans (Quiet.queued fun p hp => mem_of_mem_leftBy hp)
    · obtain ⟨r, hr, heq⟩ := Option.map_eq_some_iff.1 h
      cases heq
      have hw := Quiet.writeRt (m := m) (s := s) d
        (f := fun rt => rt.ringSearch.nextRequest now) fun rt => rt.nextRequest_route now
      have hraised := quiet_raiseSeqno hr
      have hquiet : Quiet m s s' [] := hw.trans (⟨⟨hraised.index, hraised.here,
        hraised.routes, hraised.queue, hraised.parity, hraised.seqno⟩, hraised.sent⟩ :
          Quiet m (s.writeRt d _) s' [])
      have hseqno : s'.seqno = (s.seqno + 2) % m ∧ s'.seqno % 2 = 0 := by
        rw [raiseSeqno] at hr
        split_ifs at hr with heven
        cases hr
        exact ⟨rfl, heven⟩
      refine { hquiet with sent := fun x hx => ?_ }
      obtain rfl := mem_singleton.1 hx
      refine Routine.request (ringSearch_ttl rt) rfl rfl hseqno.2 fun hm => ?_
      dsimp only
      rw [hseqno.1, hm, Nat.mod_zero]
      omega

variable (now) in
theorem exists_sendRequest (hm : 2 ∣ m) (hs : s.seqno % 2 = 0) (hrt : s.rtLookup d = some rt)
    (hup : rt.flags = .up → rt.hops ≠ infinity2) : ∃ s' out, s.sendRequest m now d = some (s', out) := by
  rw [sendRequest, hrt]
  dsimp only
  split_ifs with h₁ h₂ h₃ h₄
  · exact absurd h₂ (hup h₁)
  · exact ⟨_, _, rfl⟩
  · exact ⟨_, _, rfl⟩
  · exact ⟨_, _, rfl⟩
  · obtain ⟨r, hr⟩ := exists_raiseSeqno (s := { s.writeRt d fun rt => rt.ringSearch.nextRequest now with
      bid := s.bid + 1 }) hm hs
    rw [hr]
    exact ⟨_, _, rfl⟩

end AodvAgent

end Ns2.Aodv
