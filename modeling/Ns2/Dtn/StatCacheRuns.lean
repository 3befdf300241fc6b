import Ns2.Dtn.StatCache

/-! The sums kept in the matrix of an agent over runs of writes and queries, several of them
at one instant. -/

namespace Ns2

open Option Function

namespace StatOwner

open DtnMessage

variable {ns ns' ns'' : StatOwner} {now : ℚ}
variable {id bundleId nodeId : List Char} {lt ttl : ℚ}

/-- The messages that are not frozen after writes grew by them. -/
structure Grown (ns ns' : StatOwner) : Prop where
  axe : ns'.axeLength = ns.axeLength
  message : ∀ id, (ns'.message id).messageStatus ≠ 1 → Grew (ns.message id) (ns'.message id)

theorem Grown.refl (ns : StatOwner) : Grown ns ns := ⟨rfl, fun _ _ => Grew.refl _⟩

theorem Grown.trans (h : Grown ns ns') (h' : Grown ns' ns'') : Grown ns ns'' := by
  refine ⟨h'.axe.trans h.axe, fun id hstatus => ?_⟩
  have hgrew := h'.message id hstatus
  exact (h.message id (hgrew.status ▸ hstatus)).trans hgrew

theorem message_of_find {m : DtnMessage} (h : ns.messagesMatrix.find id = some m) :
    ns.message id = m := by
  rw [message, h, getD_some]

theorem message_setMessage (ns : StatOwner) (id id' : List Char) (m : DtnMessage) :
    (ns.setMessage id m).message id' = if id' = id then m else ns.message id' := by
  change ((ns.messagesMatrix.set id m).find id').getD _ = _
  rw [OrdMap.find_set]
  split_ifs
  · rfl
  · rfl

theorem Grown.setMessage (h : Grown ns ns') {m : DtnMessage}
    (hm : m.messageStatus ≠ 1 → Grew (ns.message id) m) : Grown ns (ns'.setMessage id m) := by
  refine ⟨h.axe, fun id' hstatus => ?_⟩
  rw [message_setMessage] at hstatus ⊢
  split_ifs at hstatus ⊢ with hid
  · exact hid ▸ hm hstatus
  · exact h.message id' hstatus

theorem grown_openMessage (ns : StatOwner) (id : List Char) (ttl now : ℚ) :
    Grown ns (ns.openMessage id ttl now).2 ∧ Grew (ns.message id) (ns.openMessage id ttl now).1 := by
  rw [openMessage, message]
  cases ns.messagesMatrix.find id with
  | some m => exact ⟨Grown.refl ns, rfl, rfl, rfl, fun h => h, fun h => h⟩
  | none => exact ⟨⟨rfl, fun _ _ => Grew.refl _⟩, rfl, rfl, rfl, fun h => h, fun h => h⟩

theorem grown_putBundle (h : ns.putBundle bundleId nodeId lt ttl now = some ns') :
    Grown ns ns' := by
  rw [putBundle, ite_none_left_eq_some] at h
  obtain ⟨bin, -, hput⟩ := bind_eq_some_iff.1 h.2
  obtain ⟨m, hm, rfl⟩ := map_eq_some_iff.1 hput
  obtain ⟨hgrown, hgrew⟩ := grown_openMessage ns bundleId ttl now
  refine hgrown.setMessage fun _ => hgrew.trans ((grew_setLifeTime lt now _).trans ?_)
  split_ifs at hm
  · exact grew_addNodeBin hm
  · exact some.inj hm ▸ Grew.refl _

theorem grown_getNumberOfInvalidMessages {r : StatOwner × ℤ}
    (h : ns.getNumberOfInvalidMessages now = some r) : Grown ns r.1 := by
  refine foldlM_keeps_of_mem (Q := fun r : StatOwner × ℤ => Grown ns r.1)
    (fun e he s s' hs hgrown => ?_) h (Grown.refl ns)
  obtain ⟨v, hv, rfl⟩ := map_eq_some_iff.1 hs
  refine hgrown.setMessage fun hstatus => ?_
  rw [message_of_find (OrdMap.mem_entries.1 he)]
  exact grew_isValid hv hstatus

theorem grown_addBundle (h : ns.addBundle bundleId nodeId lt ttl now = some ns') :
    Grown ns ns' := by
  rw [addBundle] at h
  split_ifs at h
  · obtain ⟨r, hr, h⟩ := bind_eq_some_iff.1 h
    have hgrown := grown_getNumberOfInvalidMessages hr
    split_ifs at h
    · exact hgrown.trans (grown_putBundle h)
    · exact some.inj h ▸ hgrown
  · exact grown_putBundle h
  · exact some.inj h ▸ Grown.refl ns
  · exact some.inj h ▸ Grown.refl ns

theorem grown_updateBundleStatus {del : ℤ}
    (h : ns.updateBundleStatus nodeId bundleId del lt ttl now = some ns') : Grown ns ns' := by
  obtain ⟨bin, -, h⟩ := bind_eq_some_iff.1 h
  split at h
  · next m hm =>
    obtain ⟨m', hm', rfl⟩ := map_eq_some_iff.1 h
    refine (Grown.refl ns).setMessage fun _ => ?_
    rw [message_of_find hm]
    exact (grew_addNodeBin hm').trans ⟨rfl, rfl, rfl, fun h => h, fun h => h⟩
  · exact some.inj h ▸ Grown.refl ns

theorem grown_receiveMessage {reports : List (List Char × BitReport)}
    (h : ns.receiveMessage id ttl now (reports.map fun e => (e.1, e.2.toReport)) = some ns') :
    Grown ns ns' := by
  obtain ⟨m, hm, rfl⟩ := map_eq_some_iff.1 h
  obtain ⟨hgrown, hgrew⟩ := grown_openMessage ns id ttl now
  refine hgrown.setMessage fun _ => hgrew.trans ?_
  rw [List.foldlM_map] at hm
  exact foldlM_keeps (Q := Grew _) (fun e m m' hadd hgrew => hgrew.trans (grew_addNodeReport hadd)) hm
    (Grew.refl _)

end StatOwner

namespace StatCache

open DtnMessage StatOwner

variable {s s' : StatCache}
variable {id : List Char} {w : StatWrite}

/-- What every reached state satisfies, wrong answers or not. -/
structure Wf (s : StatCache) : Prop where
  kept : ∀ id, (s.owner.message id).messageStatus ≠ 1 →
    (s.owner.message id).Kept s.owner.axeLength
  updated : ∀ id, (s.times id).updated ≤ s.clock

/-- All messages that are not frozen answer what their records say. -/
def Coherent (s : StatCache) : Prop := ∀ id, (s.owner.message id).messageStatus ≠ 1 →
  (s.owner.message id).Sound s.owner.axeLength (s.times id)

/-- A write spoils no sum of a message that is not frozen after it: a kept sum is computed
anew by the next query, or the write leaves it as it was. -/
def Meets (s : StatCache) : CacheEvent → Prop
  | .write w => ∀ owner, s.writes w = some owner → ∀ id, (owner.message id).messageStatus ≠ 1 →
    Harmless s.owner.axeLength (s.timesAfter w id) (s.owner.message id) (owner.message id)
  | _ => True

/-- After the event the queries answer right. -/
def KeepsRight (s : StatCache) (e : CacheEvent) : Prop :=
  ∀ s' a, machine.step s e = some (s', a) → s'.Right

theorem Wf.right_iff (h : s.Wf) : s.Right ↔ s.Coherent := by
  have hmessage : ∀ id m, s.owner.messagesMatrix.find id = some m → m.messageStatus ≠ 1 →
      ((∀ k : ℕ, (∃ s', s.step (.seen id k) = some (s', some (max 1 (m.seenBy k)))) ∧
        ∃ s', s.step (.copies id k) = some (s', some (max 1 (m.copies k)))) ↔
      m.Sound s.owner.axeLength (s.times id)) := by
    intro id m hm hstatus
    have hkept : m.Kept s.owner.axeLength := by
      rw [← message_of_find hm] at hstatus ⊢
      exact h.kept id hstatus
    rw [Sound, ← getNumberOfNodesThatHaveSeenIt_right_iff s.clock hkept,
      ← getNumberOfCopiesAt_right_iff s.clock hkept, ← forall_and]
    refine forall_congr' fun k => and_congr ?_ ?_
    · simp only [step, hm]
      constructor
      · rintro ⟨s', hs'⟩
        obtain ⟨r, hr, heq⟩ := map_eq_some_iff.1 hs'
        exact ⟨r, hr, some.inj (Prod.mk.inj heq).2⟩
      · rintro ⟨r, hr, heq⟩
        rw [hr]
        exact ⟨_, congrArg some (Prod.ext rfl (congrArg some heq))⟩
    · simp only [step, hm]
      constructor
      · rintro ⟨s', hs'⟩
        exact some.inj (Prod.mk.inj (some.inj hs')).2
      · intro heq
        exact ⟨_, congrArg some (Prod.ext rfl (congrArg some heq))⟩
  constructor
  · intro hright id hstatus
    cases hfind : s.owner.messagesMatrix.find id with
    | none =>
      rw [StatOwner.message, hfind]
      exact sound_new id 0 0
    | some m =>
      rw [message_of_find hfind] at hstatus ⊢
      exact (hmessage id m hfind hstatus).1 (hright id m hfind hstatus)
  · intro hcoherent id m hfind hstatus
    refine (hmessage id m hfind hstatus).2 ?_
    rw [← message_of_find hfind] at hstatus ⊢
    exact hcoherent id hstatus

theorem entered_of_size (h : 0 < (s.owner.message id).size) : s.entered id = s.times id := by
  cases hfind : s.owner.messagesMatrix.find id with
  | none =>
    rw [StatOwner.message, hfind] at h
    exact absurd h (Nat.not_lt_zero _)
  | some m => rw [entered, hfind]

theorem timesAfter_of_size (w : StatWrite) (h : 0 < (s.owner.message id).size) :
    s.timesAfter w id = s.times id ∨ s.timesAfter w id = { s.times id with updated := s.clock } := by
  have htouch : ∀ id', s.touch id' id = s.times id ∨
      s.touch id' id = { s.times id with updated := s.clock } := by
    intro id'
    by_cases hid : id = id'
    · subst hid
      rw [touch, update_self, entered_of_size h]
      exact Or.inr rfl
    · rw [touch, update_of_ne hid]
      exact Or.inl rfl
  cases w with
  | addBundle bundleId nodeId lt ttl =>
    rw [timesAfter]
    split_ifs
    · exact htouch bundleId
    · exact Or.inl rfl
  | updateBundleStatus nodeId bundleId del lt ttl =>
    rw [timesAfter]
    cases s.owner.messagesMatrix.find bundleId with
    | some m => exact htouch bundleId
    | none => exact Or.inl rfl
  | receive bundleId ttl reports =>
    rw [timesAfter]
    by_cases hid : id = bundleId
    · subst hid
      rw [update_self, entered_of_size h]
      exact Or.inl rfl
    · rw [update_of_ne hid]
      exact Or.inl rfl
  | isValid bundleId binIndex => exact Or.inl rfl

theorem Wf.summed_timesAfter (h : s.Wf) (w : StatWrite) (hsize : 0 < (s.owner.message id).size) :
    (s.timesAfter w id).lastMiReport = (s.times id).lastMiReport ∧
      (s.timesAfter w id).lastNiReport = (s.times id).lastNiReport ∧
      (s.times id).updated ≤ (s.timesAfter w id).updated := by
  rcases timesAfter_of_size w hsize with ht | ht
  · rw [ht]
    exact ⟨rfl, rfl, le_rfl⟩
  · rw [ht]
    exact ⟨rfl, rfl, h.updated id⟩

theorem Wf.updated_timesAfter (h : s.Wf) (w : StatWrite) (id : List Char) :
    (s.timesAfter w id).updated ≤ s.clock := by
  have hupdate : ∀ (id' : List Char) (t : ReportTimes), t.updated ≤ s.clock →
      (Function.update s.times id' t id).updated ≤ s.clock := by
    intro id' t ht
    by_cases hid : id = id'
    · subst hid
      rwa [update_self]
    · rw [update_of_ne hid]
      exact h.updated id
  have hentered : ∀ id', (s.entered id').updated ≤ s.clock := by
    intro id'
    rw [entered]
    split
    · exact h.updated id'
    · exact le_rfl
  cases w with
  | addBundle bundleId nodeId lt ttl =>
    rw [timesAfter]
    split_ifs
    · exact hupdate bundleId _ le_rfl
    · exact h.updated id
  | updateBundleStatus nodeId bundleId del lt ttl =>
    rw [timesAfter]
    cases s.owner.messagesMatrix.find bundleId with
    | some m => exact hupdate bundleId _ le_rfl
    | none => exact h.updated id
  | receive bundleId ttl reports => exact hupdate bundleId _ (hentered bundleId)
  | isValid bundleId binIndex => exact h.updated id

theorem grown_writes {owner : StatOwner} (h : s.writes w = some owner) : Grown s.owner owner := by
  cases w with
  | addBundle bundleId nodeId lt ttl => exact grown_addBundle h
  | updateBundleStatus nodeId bundleId del lt ttl => exact grown_updateBundleStatus h
  | receive bundleId ttl reports => exact grown_receiveMessage h
  | isValid bundleId binIndex =>
    rw [writes] at h
    split at h
    · next m hm =>
      obtain ⟨v, hv, rfl⟩ := map_eq_some_iff.1 h
      refine (Grown.refl s.owner).setMessage fun hstatus => ?_
      rw [message_of_find hm]
      exact grew_isValid hv hstatus
    · exact some.inj h ▸ Grown.refl s.owner

theorem Wf.write (h : s.Wf) (hs : s.Coherent) {owner : StatOwner} (hw : s.writes w = some owner) :
    Wf ⟨owner, s.timesAfter w, s.clock⟩ ∧
    (Coherent ⟨owner, s.timesAfter w, s.clock⟩ ↔
      ∀ id, (owner.message id).messageStatus ≠ 1 →
        Harmless s.owner.axeLength (s.timesAfter w id) (s.owner.message id) (owner.message id)) := by
  have hgrown := grown_writes hw
  have hstatus : ∀ id, (owner.message id).messageStatus ≠ 1 →
      (s.owner.message id).messageStatus ≠ 1 :=
    fun id hid => (hgrown.message id hid).status ▸ hid
  refine ⟨⟨fun id hid => ?_, h.updated_timesAfter w⟩, forall_congr' fun id => forall_congr' fun hid => ?_⟩
  · have hkept := (hgrown.message id hid).kept (h.kept id (hstatus id hid))
    rwa [← hgrown.axe] at hkept
  · rw [hgrown.axe]
    refine (hgrown.message id hid).sound_iff (hs id (hstatus id hid)) (fun hdue => ?_) fun hdue => ?_
    · obtain ⟨hmi, -, hle⟩ := h.summed_timesAfter w hdue.2
      exact hmi ▸ hdue.1.trans_le hle
    · obtain ⟨-, hni, hle⟩ := h.summed_timesAfter w hdue.2
      exact hni ▸ hdue.1.trans_le hle

theorem Wf.answer (h : s.Wf) (hs : s.Coherent) {m : DtnMessage} {r : DtnMessage × ReportTimes × ℤ}
    (hm : s.owner.messagesMatrix.find id = some m)
    (hr : r.1.messageStatus = m.messageStatus ∧ r.2.1.updated = (s.times id).updated)
    (hkept : m.Kept s.owner.axeLength → m.Sound s.owner.axeLength (s.times id) →
      r.1.Kept s.owner.axeLength ∧ r.1.Sound s.owner.axeLength r.2.1) :
    (s.answer id r).1.Wf ∧ (s.answer id r).1.Coherent := by
  replace hkept : r.1.messageStatus ≠ 1 →
      r.1.Kept s.owner.axeLength ∧ r.1.Sound s.owner.axeLength r.2.1 := by
    intro hstatus
    rw [hr.1, ← message_of_find hm] at hstatus
    rw [← message_of_find hm] at hkept
    exact hkept (h.kept id hstatus) (hs id hstatus)
  refine ⟨⟨fun id' hid => ?_, fun id' => ?_⟩, fun id' hid => ?_⟩
  · simp only [StatCache.answer, message_setMessage] at hid ⊢
    split_ifs at hid ⊢
    · exact (hkept hid).1
    · exact h.kept id' hid
  · simp only [StatCache.answer]
    by_cases hid : id' = id
    · subst hid
      rw [update_self, hr.2]
      exact h.updated id'
    · rw [update_of_ne hid]
      exact h.updated id'
  · simp only [StatCache.answer, message_setMessage] at hid ⊢
    by_cases heq : id' = id
    · subst heq
      rw [if_pos rfl] at hid ⊢
      rw [update_self]
      exact (hkept hid).2
    · rw [if_neg heq] at hid ⊢
      rw [update_of_ne heq]
      exact hs id' hid

/-- One step: what holds in every state stays, and the answers stay right exactly when the
event spoils no sum. -/
theorem Wf.step (h : s.Wf) (hs : s.Coherent) {e : CacheEvent} {a : Option ℤ}
    (hstep : machine.step s e = some (s', a)) : s'.Wf ∧ (s'.Coherent ↔ s.Meets e) := by
  cases e with
  | wait d =>
    obtain ⟨rfl, -⟩ := Prod.mk.inj (some.inj hstep)
    refine ⟨⟨h.kept, fun id => (h.updated id).trans ?_⟩, iff_of_true hs trivial⟩
    exact le_add_of_nonneg_right d.2
  | write w =>
    obtain ⟨owner, hw, heq⟩ := map_eq_some_iff.1 hstep
    obtain ⟨rfl, -⟩ := Prod.mk.inj heq
    obtain ⟨hwf, hiff⟩ := h.write hs hw
    refine ⟨hwf, hiff.trans ⟨fun hall owner' hw' => ?_, fun hmeets => hmeets owner hw⟩⟩
    obtain rfl := some.inj (hw.symm.trans hw')
    exact hall
  | seen id binIndex =>
    change StatCache.step s (.seen id binIndex) = _ at hstep
    rw [StatCache.step] at hstep
    split at hstep
    · next m hm =>
      obtain ⟨r, hr, heq⟩ := map_eq_some_iff.1 hstep
      obtain ⟨hwf, hcoherent⟩ := h.answer hs hm (getNumberOfNodesThatHaveSeenIt_keeps hr)
        fun hkept hsound => hkept.getNumberOfNodesThatHaveSeenIt hsound (h.updated id) hr
      rw [heq] at hwf hcoherent
      exact ⟨hwf, iff_of_true hcoherent trivial⟩
    · obtain ⟨rfl, -⟩ := Prod.mk.inj (some.inj hstep)
      exact ⟨h, iff_of_true hs trivial⟩
  | copies id binIndex =>
    change StatCache.step s (.copies id binIndex) = _ at hstep
    rw [StatCache.step] at hstep
    split at hstep
    · next m hm =>
      obtain ⟨hwf, hcoherent⟩ := h.answer hs hm (getNumberOfCopiesAt_keeps binIndex)
        fun hkept hsound => hkept.getNumberOfCopiesAt hsound (h.updated id) binIndex
      rw [some.inj hstep] at hwf hcoherent
      exact ⟨hwf, iff_of_true hcoherent trivial⟩
    · obtain ⟨rfl, -⟩ := Prod.mk.inj (some.inj hstep)
      exact ⟨h, iff_of_true hs trivial⟩

theorem Fresh.wf (h : s.Fresh) : s.Wf ∧ s.Coherent := by
  have hmessage : ∀ id, s.owner.message id = DtnMessage.new id 0 0 := by
    intro id
    rw [StatOwner.message, h.matrix]
    rfl
  refine ⟨⟨fun id _ => ?_, fun id => ?_⟩, fun id _ => ?_⟩
  · rw [hmessage id]
    exact kept_new id 0 0
  · rw [h.times id]
    exact h.clock
  · rw [hmessage id]
    exact sound_new id 0 0

theorem Wf.runsWith_iff (h : s.Wf) (hs : s.Coherent) (es : List CacheEvent) :
    machine.RunsWith KeepsRight s es ↔ machine.RunsWith Meets s es := by
  induction es generalizing s with
  | nil => exact Iff.rfl
  | cons e es ih =>
    cases hstep : machine.step s e with
    | none =>
      refine iff_of_true ⟨fun s' a hs' => ?_, fun s' a hs' => ?_⟩ ⟨?_, fun s' a hs' => ?_⟩
      · rw [hstep] at hs'
        cases hs'
      · rw [hstep] at hs'
        cases hs'
      · cases e with
        | write w =>
          intro owner hw
          have hnone : (s.writes w).map _ = none := hstep
          rw [hw] at hnone
          cases hnone
        | _ => trivial
      · rw [hstep] at hs'
        cases hs'
    | some r =>
      obtain ⟨s₁, a⟩ := r
      obtain ⟨hwf, hiff⟩ := h.step hs hstep
      rw [Machine.runsWith_cons_iff hstep, Machine.runsWith_cons_iff hstep, ← hiff]
      have hright : s.KeepsRight e ↔ s₁.Coherent := by
        rw [← hwf.right_iff]
        refine ⟨fun hkeeps => hkeeps s₁ a hstep, fun hright s' b hs' => ?_⟩
        obtain ⟨rfl, -⟩ := Prod.mk.inj (some.inj (hstep.symm.trans hs'))
        exact hright
      rw [hright]
      exact and_congr_right fun hcoherent => ih hwf hcoherent

/-- All queries of a run answer what the records say exactly when every write of it either
comes later than the sums of its message or leaves them as they were. -/
theorem runsWith_keepsRight_iff (h : s.Fresh) (es : List CacheEvent) :
    machine.RunsWith KeepsRight s es ↔ machine.RunsWith Meets s es :=
  h.wf.1.runsWith_iff h.wf.2 es

/-- An agent with two bins of one second and the first spraying policy. -/
def start : StatCache := ⟨⟨['a'], 2, 1, 0, 10, 0, OrdMap.empty⟩, fun _ => ⟨0, 0, 0⟩, 0⟩

/-- The agent stores the bundle, and one second later its sum is asked for. -/
def stored : List CacheEvent :=
  [.wait 1, .write (.addBundle ['R'] ['a'] 0 100), .wait 1, .seen ['R'] 0]

/-- Another node has the bundle, too. -/
def holder : BitReport where
  bitMap := fun k => if k = 0 then 1 else 0
  lm := 2
  statVersion := 0
  miStartIndex := 0
  bits := fun k => by split_ifs <;> simp

theorem fresh_start : start.Fresh := ⟨rfl, fun _ => rfl, le_rfl⟩

theorem runsWith_keepsRight_iff_stored :
    machine.RunsWith KeepsRight start stored ↔ machine.RunsWith Meets start stored :=
  runsWith_keepsRight_iff fresh_start stored

theorem not_runsWith_of_stale
    (hstale : ((machine.run start (stored ++ [.write w])).bind fun r =>
      (r.1.owner.messagesMatrix.find ['R']).map fun m =>
        (m.messageStatus, m.seenBy 0, (r.1.step (.seen ['R'] 0)).map Prod.snd)) =
      some (0, 2, some (some 1))) : ¬ machine.RunsWith KeepsRight start (stored ++ [.write w]) := by
  intro hruns
  obtain ⟨r, hr, hstale⟩ := bind_eq_some_iff.1 hstale
  obtain ⟨m, hm, hstale⟩ := map_eq_some_iff.1 hstale
  obtain ⟨hstatus, hseen, hanswer⟩ : m.messageStatus = 0 ∧ m.seenBy 0 = 2 ∧
      (r.1.step (.seen ['R'] 0)).map Prod.snd = some (some 1) := by
    simpa only [Prod.mk.injEq] using hstale
  have hright : r.1.Right := hruns.keeps (fun _ _ s' a _ hok hstep => hok s' a hstep) hr
    (fresh_start.wf.1.right_iff.2 fresh_start.wf.2)
  obtain ⟨s', hs'⟩ := (hright ['R'] m hm (by omega) 0).1
  rw [Nat.cast_zero, hseen] at hs'
  rw [hs'] at hanswer
  have htwo : max 1 2 = (1 : ℤ) := some.inj (some.inj hanswer)
  omega

/-- The report of the other node, or a second write at the instant of the query, leaves the sum
behind. -/
theorem not_runsWith_keepsRight :
    ¬ machine.RunsWith KeepsRight start (stored ++ [.write (.receive ['R'] 100 [(['b'], holder)])]) ∧
    ¬ machine.RunsWith KeepsRight start (stored ++ [.write (.addBundle ['R'] ['b'] 0 100)]) :=
  ⟨not_runsWith_of_stale (by decide +kernel), not_runsWith_of_stale (by decide +kernel)⟩

end StatCache

end Ns2
