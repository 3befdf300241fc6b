import Ns2.Tora.ToraHandlers

/-! The link books of a TORA node: the counters of its destinations, the directions of their links and the
ids of its own heights, along every sequence of queries, updates, clears and link changes. -/

namespace Ns2.Tora

open List

namespace Height

theorem compare_pos_or_neg {a h : Height} (hid : a.id ≠ h.id) : a.compare h > 0 ∨ a.compare h < 0 := by
  rw [compare_pos_iff, compare_neg_iff]
  exact lt_or_gt_of_ne fun heq => hid (congrArg id (key_injective heq))

theorem setNull_eq {h : Height} (hnull : h.isNull = true) : h.setNull = h := by
  obtain ⟨tau, oid, r, delta, id⟩ := h
  simp only [isNull, Bool.and_eq_true, decide_eq_true_eq] at hnull
  obtain ⟨⟨⟨rfl, rfl⟩, rfl⟩, rfl⟩ := hnull
  rfl

end Height

namespace ToraNeighbor

/-- The link has the status that `update_link_status` gives it for the own height, whichever it had. -/
def Assigned (tn : ToraNeighbor) (own : Height) : Prop :=
  ∀ st, { tn with lnkStat := st }.updateLinkStatus own = tn

variable {tn : ToraNeighbor} {own : Height}

theorem assigned_updateLinkStatus
    (hid : tn.height.isNull = true ∨ own.isNull = true ∨ tn.height.id ≠ own.id) :
    (tn.updateLinkStatus own).Assigned own := by
  intro st
  unfold updateLinkStatus
  rcases hid with hnull | hnull | hne
  · simp [hnull]
  · simp [hnull]
  · rcases Height.compare_pos_or_neg hne with hpos | hneg
    · simp [hpos]
    · simp [hneg, hneg.not_gt]

theorem assigned_of_null (hnull : tn.height.isNull = true) (hun : tn.lnkStat = .un) : tn.Assigned own := by
  intro st
  simp [updateLinkStatus, hnull, ← hun]

theorem isNull_of_un (h : tn.Assigned own) (hun : tn.lnkStat = .un) : tn.height.isNull = true := by
  by_contra hnull
  have hdn := congrArg lnkStat (h .dn)
  simp [updateLinkStatus, hnull, hun] at hdn
  split_ifs at hdn

theorem not_null_of_dn (h : tn.Assigned own) (hdn : tn.lnkStat = .dn) : tn.height.isNull = false := by
  by_contra hnull
  rw [Bool.not_eq_false] at hnull
  have hst := congrArg lnkStat (h .dn)
  simp [updateLinkStatus, hnull, hdn] at hst

theorem clear_eq (h : tn.Assigned own) (hun : tn.lnkStat = .un) : tn.clear = tn := by
  rw [clear, Height.setNull_eq (isNull_of_un h hun), ← hun]

end ToraNeighbor

namespace ToraDest

variable {l : List ToraNeighbor} {tau : ℚ} {oid : ℤ} {r : ToraDest × List ToraMsg}

/-- The counters count, every link has its status, the destination is downstream, and the own height has
the own id. -/
structure Books (ipaddr : ℤ) (td : ToraDest) : Prop where
  numActive : td.numActive = td.nblist.length
  numDown : td.numDown = count .dn td.nblist
  numUp : td.numUp = count .up td.nblist
  assigned : ∀ tn ∈ td.nblist, tn.Assigned td.height
  dest : ∀ tn ∈ td.nblist, tn.index = td.index → tn.lnkStat = .dn
  own : td.height.isNull = false → td.height.id = ipaddr

/-- What the books say of a neighbour; besides, its height does not have the own id. -/
structure Fits (ipaddr index : ℤ) (own : Height) (tn : ToraNeighbor) : Prop where
  assigned : tn.Assigned own
  dest : tn.index = index → tn.lnkStat = .dn
  foreign : tn.height.isNull = true ∨ tn.height.id ≠ ipaddr

structure Kept (ipaddr : ℤ) (td : ToraDest) : Prop where
  index_ne : td.index ≠ ipaddr
  own : td.height.isNull = false → td.height.id = ipaddr
  numActive : td.numActive = td.nblist.length
  numDown : td.numDown = count .dn td.nblist
  numUp : td.numUp = count .up td.nblist
  fits : ∀ tn ∈ td.nblist, Fits ipaddr td.index td.height tn

/-- The destination, when it is a neighbour, is lower than the height `h`. -/
def Above (td : ToraDest) (h : Height) : Prop :=
  ∀ tn ∈ td.nblist, tn.index = td.index → tn.height.compare h > 0

instance (td : ToraDest) (h : Height) : Decidable (td.Above h) :=
  inferInstanceAs (Decidable (∀ tn ∈ td.nblist, _))

/-- What a message must not do: a query or an update must not give the node a height below the
destination, an update must not come from the destination or carry the id of the node, and a clear must
not meet the destination as a neighbour or forget a link that is counted while one leads downstream. -/
def SafeMsg (ipaddr src : ℤ) (td : ToraDest) : ToraMsg → Prop
  | .qry _ => td.rtReq = false → td.height.r ≠ 0 → ∀ tn, td.nbFindMinHeight 0 = some tn →
    td.Above ⟨tn.height.tau, tn.height.oid, tn.height.r, tn.height.delta + 1, ipaddr⟩
  | .upd _ h => src ≠ td.index ∧ (h.isNull = true ∨ h.id ≠ ipaddr) ∧
    (td.rtReq = true → h.r = 0 → td.Above ⟨h.tau, h.oid, h.r, h.delta + 1, ipaddr⟩)
  | .clr _ tau oid =>
    if td.Clears tau oid then ∀ tn ∈ td.nblist, tn.index ≠ td.index
    else (td.nbFind src).isSome → td.numDown ≠ 0 → ∀ tn ∈ td.nblist,
      tn.index = src ∨ (tn.height.tau = tau ∧ tn.height.oid = oid ∧ tn.height.r = 1) → tn.lnkStat = .un

variable {td : ToraDest} {now : ℚ} {ipaddr src id : ℤ} {h : Height} {tn : ToraNeighbor}

theorem count_eq_countP (st : LinkStatus) (l : List ToraNeighbor) :
    count st l = l.countP fun tn => tn.lnkStat = st := by
  induction l with
  | nil => rfl
  | cons tn l ih =>
    rw [count, ih, countP_cons]
    simp

theorem count_eq_zero {st : LinkStatus} : count st l = 0 ↔ ∀ tn ∈ l, tn.lnkStat ≠ st := by
  simp [count_eq_countP, countP_eq_zero]

theorem count_updateKey {st : LinkStatus} (tn' : ToraNeighbor)
    (hfind : findKey ToraNeighbor.index id l = some tn) :
    count st (updateKey ToraNeighbor.index id (fun _ => tn') l) =
      count st l + ((if tn'.lnkStat = st then 1 else 0) - if tn.lnkStat = st then 1 else 0) := by
  induction l with
  | nil => cases hfind
  | cons a l ih =>
    rw [findKey_cons] at hfind
    rw [updateKey]
    by_cases heq : a.index = id
    · rw [if_pos heq] at hfind ⊢
      obtain rfl := Option.some.inj hfind
      simp only [count]
      omega
    · rw [if_neg heq] at hfind ⊢
      simp only [count, ih hfind]
      omega

theorem count_eraseKey (st : LinkStatus) (hfind : findKey ToraNeighbor.index id l = some tn) :
    count st (eraseKey ToraNeighbor.index id l) = count st l - (if tn.lnkStat = st then 1 else 0) ∧
      ((eraseKey ToraNeighbor.index id l).length : ℤ) = l.length - 1 := by
  induction l with
  | nil => cases hfind
  | cons a l ih =>
    rw [findKey_cons] at hfind
    rw [eraseKey_cons]
    by_cases heq : a.index = id
    · rw [if_pos heq] at hfind ⊢
      obtain rfl := Option.some.inj hfind
      simp [count]
    · rw [if_neg heq] at hfind ⊢
      obtain ⟨h₁, h₂⟩ := ih hfind
      simp only [count, h₁, length_cons, Nat.cast_add, Nat.cast_one, h₂]
      omega

theorem Kept.books (hk : Kept ipaddr td) : Books ipaddr td :=
  ⟨hk.numActive, hk.numDown, hk.numUp, fun tn htn => (hk.fits tn htn).assigned,
    fun tn htn => (hk.fits tn htn).dest, hk.own⟩

/-- A new height makes the books anew. -/
theorem kept_updateHeight {r delta nid : ℤ} (hne : td.index ≠ ipaddr)
    (hforeign : ∀ tn ∈ td.nblist, tn.height.isNull = true ∨ tn.height.id ≠ ipaddr)
    (hown : (⟨tau, oid, r, delta, nid⟩ : Height).isNull = true ∨ nid = ipaddr)
    (hdest : ∀ tn ∈ td.nblist, tn.index = td.index → tn.height.isNull = false ∧
      tn.height.compare ⟨tau, oid, r, delta, nid⟩ > 0) :
    Kept ipaddr (td.updateHeight tau oid r delta nid) where
  index_ne := hne
  own hnull := hown.resolve_left fun h => by rw [ToraDest.updateHeight, h] at hnull; cases hnull
  numActive := rfl
  numDown := rfl
  numUp := rfl
  fits tn' htn' := by
    obtain ⟨tn, htn, rfl⟩ := mem_map.1 htn'
    refine ⟨ToraNeighbor.assigned_updateLinkStatus ((hforeign tn htn).imp id fun hid => ?_),
      fun hindex => ?_, hforeign tn htn⟩
    · refine hown.imp id fun heq => ?_
      rw [heq]
      exact hid
    · obtain ⟨hnull, hpos⟩ := hdest tn htn hindex
      simp [ToraNeighbor.updateLinkStatus, hnull, hpos]

section

variable (hk : Kept ipaddr td)
include hk

theorem Kept.updateHeight {r delta : ℤ} (habove : td.Above ⟨tau, oid, r, delta, ipaddr⟩) :
    Kept ipaddr (td.updateHeight tau oid r delta ipaddr) :=
  kept_updateHeight hk.index_ne (fun tn htn => (hk.fits tn htn).foreign) (Or.inr rfl) fun tn htn hindex =>
    have h := hk.fits tn htn
    ⟨ToraNeighbor.not_null_of_dn h.assigned (h.dest hindex), habove tn htn hindex⟩

theorem Kept.dest_ne (hdown : td.numDown = 0) : ∀ tn ∈ td.nblist, tn.index ≠ td.index :=
  fun tn htn hindex => count_eq_zero.1 (hk.numDown ▸ hdown) tn htn ((hk.fits tn htn).dest hindex)

theorem Kept.above (hdown : td.numDown = 0) (h : Height) : td.Above h :=
  fun tn htn hindex => absurd hindex (hk.dest_ne hdown tn htn)

theorem Kept.all_un (hdown : td.numDown = 0) (hup : td.numUp = 0) :
    ∀ tn ∈ td.nblist, tn.lnkStat = .un := by
  intro tn htn
  cases hst : tn.lnkStat with
  | up => exact absurd hst (count_eq_zero.1 (hk.numUp ▸ hup) tn htn)
  | dn => exact absurd hst (count_eq_zero.1 (hk.numDown ▸ hdown) tn htn)
  | un => rfl

theorem Kept.setNull (hdown : td.numDown = 0) (hup : td.numUp = 0) :
    Kept ipaddr { td with height := td.height.setNull } :=
  { hk with
    own := fun hnull => by rw [Height.isNull_setNull] at hnull; cases hnull
    fits := fun tn htn =>
      have hun := hk.all_un hdown hup tn htn
      { hk.fits tn htn with assigned :=
          ToraNeighbor.assigned_of_null (ToraNeighbor.isNull_of_un (hk.fits tn htn).assigned hun) hun } }

/-- Without the destination among the neighbours the books are right after the route is erased. -/
theorem Kept.erase (hdest : ∀ tn ∈ td.nblist, tn.index ≠ td.index) :
    Kept ipaddr td.erase := by
  have hnb : td.erase.nblist = td.nblist.map ToraNeighbor.clear :=
    map_congr_left fun tn htn => if_neg (hdest tn htn)
  have hun : ∀ tn' ∈ td.erase.nblist, ∃ tn ∈ td.nblist, tn' = tn.clear := fun tn' htn' => by
    obtain ⟨tn, htn, rfl⟩ := mem_map.1 (hnb ▸ htn')
    exact ⟨tn, htn, rfl⟩
  have hzero : ∀ st, st ≠ .un → 0 = count st td.erase.nblist := fun st hst => by
    refine (count_eq_zero.2 fun tn' htn' => ?_).symm
    obtain ⟨tn, -, rfl⟩ := hun tn' htn'
    exact hst.symm
  refine ⟨hk.index_ne, fun hnull => ?_, ?_, hzero .dn (by decide), hzero .up (by decide), fun tn' htn' => ?_⟩
  · rw [ToraDest.erase, Height.isNull_setNull] at hnull
    cases hnull
  · rw [hnb, length_map]
    exact hk.numActive
  · obtain ⟨tn, htn, rfl⟩ := hun tn' htn'
    have hnull := tn.height.isNull_setNull
    exact ⟨ToraNeighbor.assigned_of_null hnull rfl, fun hindex => absurd hindex (hdest tn htn), Or.inl hnull⟩

theorem Kept.updateHeightNb (htn : td.nbFind src = some tn) (hsrc : src ≠ td.index)
    (hid : h.isNull = true ∨ h.id ≠ ipaddr) : Kept ipaddr (td.updateHeightNb tn h) := by
  obtain ⟨-, hindex⟩ := mem_of_findKey htn
  rw [← hindex] at htn
  refine ⟨hk.index_ne, hk.own, hk.numActive.trans ?_, (congrArg (· + _) hk.numDown).trans ?_,
    (congrArg (· + _) hk.numUp).trans ?_, fun tn' htn' => ?_⟩
  · have hlen := congrArg List.length (nbs_updateHeightNb tn h : _ = td.nblist.map ToraNeighbor.index)
    rw [length_map, length_map] at hlen
    exact congrArg _ hlen.symm
  · exact (count_updateKey _ htn).symm
  · exact (count_updateKey _ htn).symm
  · rcases of_mem_updateKey htn' with hold | ⟨-, -, -, rfl⟩
    · exact hk.fits tn' hold
    · refine ⟨ToraNeighbor.assigned_updateLinkStatus (hid.imp id fun hne => ?_),
        fun heq => absurd (hindex.symm.trans heq) hsrc, hid⟩
      cases hnull : td.height.isNull
      · exact Or.inr (hk.own hnull ▸ hne)
      · exact Or.inl rfl

theorem Kept.nbAdd (now : ℚ) (hid : id ≠ ipaddr) (hdest : id = td.index →
    td.height.isNull = true ∨ (Height.new id).setZero.compare td.height > 0) :
    Kept ipaddr (td.nbAdd now id) := by
  unfold ToraDest.nbAdd
  split_ifs with heq
  · refine ⟨hk.index_ne, hk.own, by simp [hk.numActive], by simp [count, hk.numDown],
      by simp [count, hk.numUp], forall_mem_cons.2 ⟨⟨fun st => ?_, fun _ => rfl, Or.inr hid⟩, hk.fits⟩⟩
    have hzero : (Height.new id).setZero.isNull = false := by simp [Height.setZero, Height.isNull]
    rcases hdest heq with hnull | hpos
    · simp [ToraNeighbor.updateLinkStatus, ToraNeighbor.new, hzero, hnull]
    · simp [ToraNeighbor.updateLinkStatus, ToraNeighbor.new, hzero, hpos]
  · have hnull : (ToraNeighbor.new now id).height.isNull = true := Height.isNull_new id
    exact ⟨hk.index_ne, hk.own, by simp [hk.numActive], by simp [count, hk.numDown, ToraNeighbor.new],
      by simp [count, hk.numUp, ToraNeighbor.new], forall_mem_cons.2
        ⟨⟨ToraNeighbor.assigned_of_null hnull rfl, fun h => absurd h heq, Or.inl hnull⟩, hk.fits⟩⟩

end

theorem height_nbAdd : (td.nbAdd now id).height = td.height := by
  unfold ToraDest.nbAdd
  split_ifs <;> rfl

theorem kept_new (hid : id ≠ ipaddr) : Kept ipaddr (.new id) :=
  ⟨hid, fun hnull => (by cases (Height.isNull_new id).symm.trans hnull), rfl, rfl, rfl,
    fun _ htn => absurd htn not_mem_nil⟩

section

variable (hk : Kept ipaddr td)
include hk

theorem Kept.nbRemove (htn : td.nbFind id = some tn) : Kept ipaddr (td.nbRemove tn) := by
  rw [nbFind, ← (mem_of_findKey htn).2] at htn
  have hdn := count_eraseKey .dn htn
  have hup := count_eraseKey .up htn
  exact ⟨hk.index_ne, hk.own, (congrArg (· - 1) hk.numActive).trans hdn.2.symm,
    (congrArg (· - _) hk.numDown).trans hdn.1.symm, (congrArg (· - _) hk.numUp).trans hup.1.symm,
    fun tn' h => hk.fits tn' (mem_of_mem_eraseP h)⟩

theorem Kept.nbDel (now : ℚ) (hsafe : ∀ tn, td.nbFind id = some tn →
    (td.nbRemove tn).numDown = 0 → ¬(td.nbRemove tn).numUp > 0) : Kept ipaddr (td.nbDel now id).1 := by
  unfold ToraDest.nbDel
  rcases htn : td.nbFind id with _ | tn
  · exact hk
  · have hk' := hk.nbRemove htn
    simp only
    split_ifs with hdown
    · rw [nbLost, if_neg (hsafe tn htn hdown)]
      exact kept_updateHeight hk'.index_ne (fun tn' h => (hk'.fits tn' h).foreign)
        (Or.inl (by simp [Height.isNull])) fun tn' h hindex => absurd hindex (hk'.dest_ne hdown tn' h)
    · exact hk'

theorem Kept.announce : Kept ipaddr (announce now td).1 := { hk with }

theorem Kept.withdraw : Kept ipaddr { td with rtReq := false } := { hk with }

theorem Kept.maintain (hdown : td.numDown = 0)
    (hr : td.maintain now ipaddr = some r) : Kept ipaddr r.1 := by
  have hset : ∀ tau oid r delta, Kept ipaddr (td.updateHeight tau oid r delta ipaddr) :=
    fun _ _ _ _ => hk.updateHeight (hk.above hdown _)
  unfold ToraDest.maintain at hr
  by_cases hup : td.numUp = 0
  · rw [if_pos hup] at hr
    split_ifs at hr
    · obtain rfl := Option.some.inj hr
      exact hk
    · obtain rfl := Option.some.inj hr
      exact (hk.setNull hdown hup).announce
  · rw [if_neg hup] at hr
    split at hr <;> split at hr
    · obtain rfl := Option.some.inj hr
      exact (hset _ _ _ _).announce
    · split_ifs at hr
      · obtain rfl := Option.some.inj hr
        exact hk.erase (hk.dest_ne hdown)
      · obtain rfl := Option.some.inj hr
        exact (hset _ _ _ _).withdraw.announce
    · cases hr
    · split at hr
      · cases hr
      · obtain rfl := Option.some.inj hr
        exact (hset _ _ _ _).announce

theorem Kept.recvUPD {dst : ℤ} (hsafe : SafeMsg ipaddr src td (.upd dst h))
    (hr : td.recvUPD now ipaddr src h = some r) : Kept ipaddr r.1 := by
  obtain ⟨hsrc, hid, habove⟩ := hsafe
  unfold ToraDest.recvUPD at hr
  split at hr
  · obtain rfl := Option.some.inj hr
    exact hk
  · rename_i tn htn
    have hk' := hk.updateHeightNb htn hsrc hid
    simp only at hr
    split_ifs at hr with hreq hdown
    · obtain rfl := Option.some.inj hr
      rw [Bool.and_eq_true, decide_eq_true_eq] at hreq
      refine (hk'.updateHeight fun tn' htn' hindex => ?_).withdraw.announce
      rcases of_mem_updateKey htn' with hold | ⟨-, -, -, rfl⟩
      · exact habove hreq.1 hreq.2 tn' hold hindex
      · exact absurd ((mem_of_findKey htn).2.symm.trans hindex) hsrc
    · exact hk'.maintain hdown hr
    · obtain rfl := Option.some.inj hr
      exact hk'

theorem forget_eq (hun : ∀ tn ∈ td.nblist, tn.index = src ∨
    (tn.height.tau = tau ∧ tn.height.oid = oid ∧ tn.height.r = 1) → tn.lnkStat = .un) :
    td.forget src tau oid = td := by
  have hclear : ∀ tn ∈ td.nblist, tn.index = src ∨
      (tn.height.tau = tau ∧ tn.height.oid = oid ∧ tn.height.r = 1) → tn.clear = tn :=
    fun tn htn hc => ToraNeighbor.clear_eq (hk.fits tn htn).assigned (hun tn htn hc)
  have hkey : updateKey ToraNeighbor.index src ToraNeighbor.clear td.nblist = td.nblist := by
    refine (updateKey_congr fun tn htn => ?_).trans (updateKey_id ToraNeighbor.index src td.nblist)
    obtain ⟨hmem, hindex⟩ := mem_of_findKey htn
    exact hclear tn hmem (Or.inl hindex)
  have hmap : td.nblist.map (fun tn =>
      if tn.height.tau = tau ∧ tn.height.oid = oid ∧ tn.height.r = 1 then tn.clear else tn) = td.nblist := by
    refine (map_congr_left fun tn htn => ?_).trans (map_id _)
    split_ifs with hc
    · exact hclear tn htn (Or.inr hc)
    · rfl
  rw [forget, hkey, hmap]

end

theorem of_mem_forget (htn : tn ∈ (td.forget src tau oid).nblist) :
    ∃ tn' ∈ td.nblist, tn = tn' ∨ tn = tn'.clear ∨ tn = tn'.clear.clear := by
  obtain ⟨tn', htn', rfl⟩ := mem_map.1 htn
  rcases of_mem_updateKey htn' with hold | ⟨a, ha, -, rfl⟩
  · refine ⟨tn', hold, ?_⟩
    split_ifs
    · exact Or.inr (Or.inl rfl)
    · exact Or.inl rfl
  · refine ⟨a, ha, ?_⟩
    split_ifs
    · exact Or.inr (Or.inr rfl)
    · exact Or.inr (Or.inl rfl)

theorem Kept.recvCLR (hk : Kept ipaddr td) {dst : ℤ}
    (hsafe : SafeMsg ipaddr src td (.clr dst tau oid)) :
    Kept ipaddr (td.recvCLR now ipaddr src tau oid).1 := by
  simp only [SafeMsg] at hsafe
  unfold ToraDest.recvCLR
  by_cases hclears : td.Clears tau oid
  · rw [if_pos hclears] at hsafe ⊢
    exact hk.erase hsafe
  rw [if_neg hclears] at hsafe ⊢
  rcases htn : td.nbFind src with _ | tn
  · exact hk
  simp only
  by_cases hdown : td.numDown = 0
  · by_cases hup : td.numUp = 0
    · rw [forget_eq hk fun tn htn _ => hk.all_un hdown hup tn htn, if_pos hdown, if_pos hup]
      split_ifs
      · exact hk
      · exact (hk.setNull hdown hup).announce
    · rw [if_pos (show (td.forget src tau oid).numDown = 0 from hdown),
        if_neg (show (td.forget src tau oid).numUp ≠ 0 from hup)]
      refine Kept.announce (Kept.withdraw
        (kept_updateHeight hk.index_ne (fun tn' htn' => ?_) (Or.inr rfl) fun tn' htn' hindex => ?_))
      · obtain ⟨a, ha, rfl | rfl | rfl⟩ := of_mem_forget htn'
        · exact (hk.fits _ ha).foreign
        · exact Or.inl a.height.isNull_setNull
        · exact Or.inl a.height.setNull.isNull_setNull
      · obtain ⟨a, ha, rfl | rfl | rfl⟩ := of_mem_forget htn'
        · exact absurd hindex (hk.dest_ne hdown tn' ha)
        · exact absurd hindex (hk.dest_ne hdown a ha)
        · exact absurd hindex (hk.dest_ne hdown a ha)
  · rw [forget_eq hk (hsafe (by rw [htn]; rfl) hdown), if_neg hdown]
    exact hk

theorem Kept.recvQRY (hk : Kept ipaddr td) {dst : ℤ} (hsafe : SafeMsg ipaddr src td (.qry dst)) :
    Kept ipaddr (td.recvQRY now ipaddr src).1 := by
  unfold ToraDest.recvQRY
  by_cases hreq : td.rtReq = true
  · rw [if_pos hreq]
    exact hk
  rw [if_neg hreq]
  by_cases hr : td.height.r = 0
  · rw [if_pos hr]
    split
    · split_ifs
      · exact hk.announce
      · exact hk
    · exact hk
  · rw [if_neg hr]
    split
    · rename_i tn htn
      exact (hk.updateHeight (hsafe (by simpa using hreq) hr tn htn)).announce
    · exact { hk with }

theorem Kept.recv (hk : Kept ipaddr td) {msg : ToraMsg} (hsafe : SafeMsg ipaddr src td msg)
    (hr : td.recv now ipaddr src msg = some r) : Kept ipaddr r.1 := by
  cases msg with
  | qry dst =>
    obtain rfl := Option.some.inj hr
    exact hk.recvQRY hsafe
  | upd dst h => exact hk.recvUPD hsafe hr
  | clr dst tau oid =>
    obtain rfl := Option.some.inj hr
    exact hk.recvCLR hsafe

end ToraDest

/-- A data packet needs a route; a message is received; a link comes up or goes down. -/
inductive NodeEvent where
  | resolve (dst : ℤ)
  | recv (src : ℤ) (msg : ToraMsg)
  | linkUp (j : ℤ)
  | linkDown (j : ℤ)

/-- One node; an event comes with the time. -/
def toraNode : Machine ToraAgent (ℚ × NodeEvent) (List ToraMsg) where
  step a
    | (now, .resolve dst) => a.rtResolve now dst
    | (now, .recv src msg) => a.recvTORA now src msg
    | (now, .linkUp j) =>
      if j = a.ipaddr ∨ j ∈ a.biLinks then some (a, []) else some (a.rtNotifyLinkUP now j)
    | (now, .linkDown j) => if j ∈ a.biLinks then some (a.rtNotifyLinkDN now j) else some (a, [])

namespace ToraAgent

/-- No route to itself is asked for, a message is safe for the record of its destination, a node that
becomes a neighbour of its destination is above it, and a link that goes down does not leave a node
without downstream links but with upstream ones. -/
def Safe (a : ToraAgent) : ℚ × NodeEvent → Prop
  | (_, .resolve dst) => dst ≠ a.ipaddr
  | (now, .recv src msg) =>
    msg.dst ≠ a.ipaddr → ToraDest.SafeMsg a.ipaddr src ((a.dstFind msg.dst).getD (a.dstNew now msg.dst)) msg
  | (_, .linkUp j) => ∀ td ∈ a.dstlist, j = td.index →
    td.height.isNull = true ∨ (Height.new j).setZero.compare td.height > 0
  | (_, .linkDown j) => ∀ td ∈ a.dstlist, ∀ tn, td.nbFind j = some tn →
    (td.nbRemove tn).numDown = 0 → ¬(td.nbRemove tn).numUp > 0

structure Kept (a : ToraAgent) : Prop where
  biLinks : a.ipaddr ∉ a.biLinks
  dsts : ∀ td ∈ a.dstlist, td.Kept a.ipaddr

variable {a a' : ToraAgent} {now : ℚ} {dst : ℤ}

theorem Kept.dstNew (ha : a.Kept) (now : ℚ) (hdst : dst ≠ a.ipaddr) : (a.dstNew now dst).Kept a.ipaddr := by
  have hfold : ∀ (l : List ℤ) (td : ToraDest), a.ipaddr ∉ l → td.Kept a.ipaddr → td.height.isNull = true →
      (l.foldl (fun td j => td.nbAdd now j) td).Kept a.ipaddr := by
    intro l
    induction l with
    | nil => exact fun td _ hk _ => hk
    | cons j l ih =>
      intro td hl hk hnull
      rw [mem_cons, not_or] at hl
      refine ih _ hl.2 (hk.nbAdd now (Ne.symm hl.1) fun _ => Or.inl hnull) ?_
      rw [ToraDest.height_nbAdd]
      exact hnull
  exact hfold a.biLinks _ ha.biLinks (ToraDest.kept_new hdst) (Height.isNull_new dst)

theorem Kept.atDst (ha : a.Kept) (hdst : dst ≠ a.ipaddr) {f : ToraDest → Option (ToraDest × List ToraMsg)}
    (hf : ∀ r, f ((a.dstFind dst).getD (a.dstNew now dst)) = some r →
      ((a.dstFind dst).getD (a.dstNew now dst)).Kept a.ipaddr → r.1.Kept a.ipaddr)
    {l : List ToraMsg} (h : a.atDst now dst f = some (a', l)) : a'.ipaddr = a.ipaddr ∧ a'.Kept := by
  unfold ToraAgent.atDst at h
  rcases htd : a.dstFind dst with _ | td
  all_goals
    rw [htd] at h hf
    obtain ⟨r, hr, heq⟩ := Option.map_eq_some_iff.1 h
    obtain ⟨rfl, -⟩ := Prod.mk.inj heq
    refine ⟨rfl, ha.biLinks, ?_⟩
  · exact forall_mem_cons.2 ⟨hf r hr (ha.dstNew now hdst), ha.dsts⟩
  · intro td' htd'
    rcases of_mem_updateKey htd' with hold | ⟨-, -, -, rfl⟩
    · exact ha.dsts td' hold
    · exact hf r hr (ha.dsts td (mem_of_findKey htd).1)

theorem Kept.step (ha : a.Kept) {e : ℚ × NodeEvent} (hsafe : a.Safe e) {l : List ToraMsg}
    (h : toraNode.step a e = some (a', l)) : a'.ipaddr = a.ipaddr ∧ a'.Kept := by
  obtain ⟨now, dst | ⟨src, msg⟩ | j | j⟩ := e
  · refine ha.atDst hsafe (fun r hr hk => ?_) h
    obtain rfl := Option.some.inj hr
    unfold ToraDest.rtResolve
    split
    · split_ifs
      · exact hk
      · exact { hk with }
    · exact hk
  · simp only [toraNode, recvTORA] at h
    split_ifs at h with heq
    · obtain ⟨rfl, -⟩ := Prod.mk.inj (Option.some.inj h)
      exact ⟨rfl, ha⟩
    · exact ha.atDst heq (fun r hr hk => hk.recv (hsafe heq) hr) h
  · simp only [toraNode] at h
    split_ifs at h with hj
    · obtain ⟨rfl, -⟩ := Prod.mk.inj (Option.some.inj h)
      exact ⟨rfl, ha⟩
    · obtain ⟨rfl, -⟩ := Prod.mk.inj (Option.some.inj h)
      rw [not_or] at hj
      refine ⟨rfl, ?_, ?_⟩
      · exact fun hmem => (mem_cons.1 hmem).elim (fun h => hj.1 h.symm) ha.biLinks
      · intro td' htd'
        obtain ⟨td, htd, rfl⟩ := mem_map.1 htd'
        split_ifs
        · exact (ha.dsts td htd).nbAdd now hj.1 (hsafe td htd)
        · exact ha.dsts td htd
  · simp only [toraNode] at h
    split_ifs at h with hj
    · obtain ⟨rfl, -⟩ := Prod.mk.inj (Option.some.inj h)
      refine ⟨rfl, fun hmem => ha.biLinks (mem_of_mem_erase hmem), ?_⟩
      intro td' htd'
      obtain ⟨td, htd, rfl⟩ := mem_map.1 htd'
      exact (ha.dsts td htd).nbDel now (hsafe td htd)
    · obtain ⟨rfl, -⟩ := Prod.mk.inj (Option.some.inj h)
      exact ⟨rfl, ha⟩

end ToraAgent

/-- The books are right in every state of a run whose events are safe. -/
theorem books_of_safe {ipaddr : ℤ} {es : List (ℚ × NodeEvent)} {a : ToraAgent} {ls : List (List ToraMsg)}
    (hsafe : toraNode.RunsWith ToraAgent.Safe (.init ipaddr) es)
    (hrun : toraNode.run (.init ipaddr) es = some (a, ls)) : ∀ td ∈ a.dstlist, td.Books ipaddr := by
  have hinit : (ToraAgent.init ipaddr).ipaddr = ipaddr ∧ (ToraAgent.init ipaddr).Kept :=
    ⟨rfl, not_mem_nil, fun _ htd => absurd htd not_mem_nil⟩
  obtain ⟨rfl, ha⟩ := hsafe.keeps (I := fun a => a.ipaddr = ipaddr ∧ a.Kept) (fun a e a' l ha he hstep => by
    obtain ⟨heq, ha'⟩ := ha.2.step he hstep
    exact ⟨heq.trans ha.1, ha'⟩) hrun hinit
  exact fun td htd => (ha.dsts td htd).books

/-- A query of the node 2, and its update. -/
def queried : List (ℚ × NodeEvent) :=
  [(0, .linkUp 9), (0, .linkUp 2), (1, .recv 2 (.qry 9)), (2, .recv 2 (.upd 9 ⟨0, 0, 0, 2, 2⟩))]

theorem books_resolve : ∃ a ls, toraNode.run (.init 1) queried = some (a, ls) ∧
    ∀ td ∈ a.dstlist, td.Books 1 := by
  have hsafe : toraNode.RunsWith ToraAgent.Safe (.init 1) queried := by
    refine (Machine.runsWith_cons_iff (by rfl)).2 ⟨fun _ htd => absurd htd not_mem_nil, ?_⟩
    refine (Machine.runsWith_cons_iff (by rfl)).2 ⟨fun _ htd => absurd htd not_mem_nil, ?_⟩
    refine (Machine.runsWith_cons_iff (by rfl)).2 ⟨fun _ _ _ tn htn => ?_, ?_⟩
    · obtain rfl := Option.some.inj htn
      decide
    refine (Machine.runsWith_cons_iff (by rfl)).2 ⟨fun _ => ?_, trivial⟩
    exact ⟨by decide, Or.inr (by decide), by decide⟩
  exact ⟨_, _, rfl, books_of_safe hsafe rfl⟩

/-- Node 1 has a height from the query of 2, which is above it. When the link to the destination 9 goes
down, its new height has the id 9. -/
theorem not_books : ¬∀ es a ls, toraNode.run (.init 1) es = some (a, ls) → ∀ td ∈ a.dstlist, td.Books 1 := by
  intro h
  have hown := (h (queried ++ [(3, .linkDown 9)]) _ _ rfl _ mem_cons_self).own
  revert hown
  decide

end Ns2.Tora
