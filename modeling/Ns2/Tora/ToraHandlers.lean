import Mathlib.Data.Prod.Lex
import Mathlib.Tactic.Linarith
import Ns2.Tora.ToraDest

/-! What the handlers of TORA do to the height of a node, to what it has recorded of its neighbours and
to the directions of its links, and what they tell the neighbours. -/

namespace Ns2.Tora

open List Option

namespace Height

variable {a h : Height}

/-- The lexicographic order. -/
def key (h : Height) : ℚ ×ₗ ℤ ×ₗ ℤ ×ₗ ℤ ×ₗ ℤ := toLex (h.tau, toLex (h.oid, toLex (h.r, toLex (h.delta, h.id))))

theorem key_injective : Function.Injective key := by
  rintro ⟨_, _, _, _, _⟩ ⟨_, _, _, _, _⟩ h
  simpa [key] using h

theorem key_lt_iff : a.key < h.key ↔ a.tau < h.tau ∨ a.tau = h.tau ∧ (a.oid < h.oid ∨
    a.oid = h.oid ∧ (a.r < h.r ∨ a.r = h.r ∧ (a.delta < h.delta ∨ a.delta = h.delta ∧ a.id < h.id))) := by
  simp only [key, Prod.Lex.toLex_lt_toLex]

theorem compare_pos_iff : a.compare h > 0 ↔ a.key < h.key := by
  rw [key_lt_iff, compare]
  rcases lt_trichotomy a.tau h.tau with h₁ | h₁ | h₁
  · simp [h₁]
  · rw [h₁]
    simp only [gt_iff_lt, lt_irrefl, ↓reduceIte, false_or, true_and]
    split_ifs <;> omega
  · simp [h₁, h₁.not_gt, h₁.ne']

theorem compare_neg_iff : a.compare h < 0 ↔ h.key < a.key := by
  rw [key_lt_iff, compare]
  rcases lt_trichotomy a.tau h.tau with h₁ | h₁ | h₁
  · simp [h₁, h₁.not_gt, h₁.ne']
  · rw [h₁]
    simp only [gt_iff_lt, lt_irrefl, ↓reduceIte, false_or, true_and]
    split_ifs <;> omega
  · simp [h₁, h₁.not_gt]

@[simp] theorem isNull_setNull (h : Height) : h.setNull.isNull = true := by simp [setNull, isNull]

@[simp] theorem isNull_new (id : ℤ) : (new id).isNull = true := by simp [new, isNull]

end Height

namespace ToraNeighbor

@[simp] theorem updateLinkStatus_height (tn : ToraNeighbor) (h : Height) :
    (tn.updateLinkStatus h).height = tn.height := rfl

/-- A link is not directed upwards. -/
def Aligned (own : Height) (tn : ToraNeighbor) : Prop :=
  tn.lnkStat = .dn → own.isNull = true ∨ tn.height.key ≤ own.key

theorem aligned_updateLinkStatus (tn : ToraNeighbor) (h : Height) :
    (tn.updateLinkStatus h).Aligned h := by
  intro hdn
  rw [updateLinkStatus_height]
  by_cases hown : h.isNull = true
  · exact Or.inl hown
  · right
    by_contra hlt
    rw [not_le] at hlt
    have hpos : ¬tn.height.compare h > 0 := fun hpos => lt_asymm hlt (Height.compare_pos_iff.1 hpos)
    rw [updateLinkStatus] at hdn
    dsimp only at hdn
    rw [if_neg hown, if_neg hpos, if_pos (Height.compare_neg_iff.2 hlt)] at hdn
    split_ifs at hdn

end ToraNeighbor

namespace ToraDest

variable {td td' td'' : ToraDest} {now : ℚ} {ipaddr src : ℤ}

/-- The height that is recorded of a neighbour. -/
def record (td : ToraDest) (j : ℤ) : Option Height := (td.nbFind j).map ToraNeighbor.height

/-- No link but one to the destination is directed upwards. -/
def Aligned (td : ToraDest) : Prop :=
  ∀ tn ∈ td.nblist, tn.index ≠ td.index → tn.Aligned td.height

/-- Nothing is learnt of the neighbours but what is known of the destination. -/
structure Recast (td td' : ToraDest) : Prop where
  index : td'.index = td.index
  nbs : td'.nblist.map ToraNeighbor.index = td.nblist.map ToraNeighbor.index
  record : ∀ j h, j ≠ td.index → td'.record j = some h → h.isNull = true ∨ td.record j = some h
  aligned : td.Aligned → td'.Aligned

theorem Recast.refl (td : ToraDest) : Recast td td := ⟨rfl, rfl, fun _ _ _ h => Or.inr h, id⟩

theorem Recast.trans (h : Recast td td') (h' : Recast td' td'') : Recast td td'' := by
  refine ⟨h'.index.trans h.index, h'.nbs.trans h.nbs, fun j k hj hk => ?_, fun ha => h'.aligned (h.aligned ha)⟩
  rcases h'.record j k (h.index ▸ hj) hk with hnull | hk
  · exact Or.inl hnull
  · exact h.record j k hj hk

theorem recast_map {f : ToraNeighbor → ToraNeighbor} (hindex : ∀ tn, (f tn).index = tn.index)
    (hf : ∀ tn, tn.index ≠ td.index → (f tn).height.isNull = true ∨ (f tn).height = tn.height)
    (h : td'.index = td.index) (hmap : td'.nblist = td.nblist.map f) (halign : td.Aligned → td'.Aligned) :
    Recast td td' := by
  refine ⟨h, ?_, fun j k hj hk => ?_, halign⟩
  · rw [hmap, List.map_map]
    exact map_congr_left fun tn _ => hindex tn
  · rw [record, nbFind, hmap, findKey_map hindex, Option.map_map] at hk
    obtain ⟨tn, htn, rfl⟩ := map_eq_some_iff.1 hk
    have hne : tn.index ≠ td.index := (mem_of_findKey htn).2 ▸ hj
    rw [record, nbFind, htn]
    exact (hf tn hne).imp id fun heq => congrArg some heq.symm

theorem updateHeight_recast (td : ToraDest) (tau : ℚ) (oid r delta id : ℤ) :
    Recast td (td.updateHeight tau oid r delta id) := by
  have hindex : ∀ tn : ToraNeighbor, (tn.updateLinkStatus ⟨tau, oid, r, delta, id⟩).index = tn.index :=
    fun _ => rfl
  refine recast_map hindex (fun _ _ => Or.inr rfl) rfl rfl fun _ tn htn _ => ?_
  obtain ⟨tn, -, rfl⟩ := mem_map.1 htn
  exact tn.aligned_updateLinkStatus _

theorem setNull_recast (td : ToraDest) : Recast td { td with height := td.height.setNull } :=
  ⟨rfl, rfl, fun _ _ _ h => Or.inr h, fun _ _ _ _ _ => Or.inl td.height.isNull_setNull⟩

theorem erase_recast (td : ToraDest) : Recast td td.erase := by
  refine recast_map (fun tn => ?_) (fun tn htn => ?_) rfl rfl
    fun _ _ _ _ _ => Or.inl td.height.isNull_setNull
  · split_ifs <;> rfl
  · rw [if_neg htn]
    exact Or.inl tn.height.isNull_setNull

theorem aligned_clear (own : Height) (tn : ToraNeighbor) : tn.clear.Aligned own := fun hdn => by cases hdn

theorem forget_recast (td : ToraDest) (src : ℤ) (tau : ℚ) (oid : ℤ) :
    Recast td (td.forget src tau oid) := by
  have hclear : ∀ tn : ToraNeighbor, tn.index = src → tn.clear.index = src := fun _ h => h
  have hsender : Recast td { td with
      nblist := updateKey ToraNeighbor.index src ToraNeighbor.clear td.nblist } := by
    refine ⟨rfl, map_updateKey hclear, fun j h _ hj => ?_, fun ha tn htn hne => ?_⟩
    · rw [record, nbFind, findKey_updateKey hclear, apply_ite (Option.map ToraNeighbor.height),
        Option.map_map] at hj
      split_ifs at hj
      · obtain ⟨tn, -, rfl⟩ := map_eq_some_iff.1 hj
        exact Or.inl tn.height.isNull_setNull
      · exact Or.inr hj
    · rcases of_mem_updateKey htn with htn | ⟨tn, -, -, rfl⟩
      · exact ha tn htn hne
      · exact aligned_clear _ tn
  refine hsender.trans (recast_map (fun tn => ?_) (fun tn _ => ?_) rfl rfl fun ha tn htn hne => ?_)
  · split_ifs <;> rfl
  · split_ifs
    · exact Or.inl tn.height.isNull_setNull
    · exact Or.inr rfl
  · obtain ⟨tn, htn', rfl⟩ := mem_map.1 htn
    split_ifs at hne ⊢
    · exact aligned_clear _ tn
    · exact ha tn htn' hne

theorem record_updateHeightNb {tn : ToraNeighbor} (htn : td.nbFind src = some tn) (h : Height) (j : ℤ) :
    (td.updateHeightNb tn h).record j = if j = src then some h else td.record j := by
  have hindex : tn.index = src := (mem_of_findKey htn).2
  have hkey : ∀ m : ToraNeighbor, m.index = tn.index →
      ToraNeighbor.index ({ tn with height := h }.updateLinkStatus td.height) = tn.index := fun _ _ => rfl
  rw [record, nbFind, updateHeightNb]
  dsimp only
  rw [findKey_updateKey hkey, hindex]
  by_cases hj : j = src
  · rw [if_pos hj, if_pos hj, ← nbFind, htn]
    rfl
  · rw [if_neg hj, if_neg hj]
    rfl

theorem nbs_updateHeightNb (tn : ToraNeighbor) (h : Height) :
    (td.updateHeightNb tn h).nblist.map ToraNeighbor.index = td.nblist.map ToraNeighbor.index :=
  map_updateKey fun _ _ => rfl

theorem Aligned.updateHeightNb (ha : td.Aligned) (tn : ToraNeighbor) (h : Height) :
    (td.updateHeightNb tn h).Aligned := by
  intro m hm hne
  rcases of_mem_updateKey hm with hm | ⟨-, -, -, rfl⟩
  · exact ha m hm hne
  · exact ToraNeighbor.aligned_updateLinkStatus _ _

end ToraDest

/-- What a message tells of the height of its sender: nothing, a height or that it is erased. -/
def ToraMsg.tells : ToraMsg → Option (Option Height)
  | qry _ => none
  | upd _ h => some (some h)
  | clr _ _ _ => some none

/-- What the last message tells that tells anything. -/
def told (l : List ToraMsg) : Option (Option Height) := (l.filterMap ToraMsg.tells).getLast?

namespace ToraDest

variable {td td' : ToraDest} {now : ℚ} {ipaddr src : ℤ}
variable {r : ToraDest × List ToraMsg} {h : Height}
variable {ok : ToraNeighbor → Bool} {tn : ToraNeighbor} {msg : ToraMsg}

/-- A handler: a height that changes is told, and it is null or has the id of the node. -/
structure Acts (ipaddr : ℤ) (td : ToraDest) (r : ToraDest × List ToraMsg) : Prop extends
    Recast td r.1 where
  own : r.1.height = td.height ∨ r.1.height.isNull = true ∨ r.1.height.id = ipaddr
  told : r.1.height = td.height ∧ told r.2 = none ∨ told r.2 = some (some r.1.height) ∨
    told r.2 = some none
  dst : ∀ m ∈ r.2, m.dst = td.index

theorem acts_refl (ipaddr : ℤ) (td : ToraDest) : Acts ipaddr td (td, []) :=
  ⟨Recast.refl td, Or.inl rfl, Or.inl ⟨rfl, rfl⟩, fun _ hm => by cases hm⟩

theorem acts_query (ipaddr : ℤ) (td : ToraDest) (p : Prop) [Decidable p] :
    Acts ipaddr td ({ td with rtReq := true }, if p then [td.sendQRY] else []) := by
  refine ⟨⟨rfl, rfl, fun _ _ _ h => Or.inr h, id⟩, Or.inl rfl, Or.inl ⟨rfl, ?_⟩, fun m hm => ?_⟩
  · split_ifs <;> rfl
  · split_ifs at hm
    · rw [mem_singleton.1 hm]
      rfl
    · cases hm

theorem Recast.announce (h : Recast td td')
    (hown : td'.height = td.height ∨ td'.height.isNull = true ∨ td'.height.id = ipaddr) :
    Acts ipaddr td (announce now td') := by
  refine ⟨⟨h.index, h.nbs, h.record, h.aligned⟩, hown, Or.inr (Or.inl rfl), fun m hm => ?_⟩
  rw [mem_singleton.1 hm]
  exact h.index

theorem Acts.after (h : Acts ipaddr td' r) (hr : Recast td td') (heq : td'.height = td.height) :
    Acts ipaddr td r :=
  ⟨hr.trans h.toRecast, heq ▸ h.own, heq ▸ h.told, fun m hm => (h.dst m hm).trans hr.index⟩

theorem acts_updateHeight (now : ℚ) (ipaddr : ℤ) (td : ToraDest) (tau : ℚ) (oid r delta : ℤ) :
    Acts ipaddr td (announce now (td.updateHeight tau oid r delta ipaddr)) :=
  (updateHeight_recast td tau oid r delta ipaddr).announce (Or.inr (Or.inr rfl))

theorem acts_found (now : ℚ) (ipaddr : ℤ) (td : ToraDest) (tau : ℚ) (oid r delta : ℤ) :
    Acts ipaddr td (announce now { td.updateHeight tau oid r delta ipaddr with rtReq := false }) := by
  have h := updateHeight_recast td tau oid r delta ipaddr
  have hflag : Recast td { td.updateHeight tau oid r delta ipaddr with rtReq := false } :=
    ⟨h.index, h.nbs, h.record, h.aligned⟩
  exact hflag.announce (Or.inr (Or.inr rfl))

theorem acts_setNull (now : ℚ) (ipaddr : ℤ) (td : ToraDest) :
    Acts ipaddr td (announce now { td with height := td.height.setNull }) :=
  (setNull_recast td).announce (Or.inr (Or.inl td.height.isNull_setNull))

theorem acts_erase (ipaddr : ℤ) (td : ToraDest) (tau : ℚ) (oid : ℤ) :
    Acts ipaddr td (td.erase, [td.sendCLR tau oid]) := by
  refine ⟨erase_recast td, Or.inr (Or.inl td.height.isNull_setNull), Or.inr (Or.inr rfl), fun m hm => ?_⟩
  rw [mem_singleton.1 hm]
  rfl

theorem acts_rtResolve (ipaddr : ℤ) (td : ToraDest) : Acts ipaddr td td.rtResolve := by
  rw [rtResolve]
  split
  · split_ifs
    · exact acts_refl ipaddr td
    · have hquery := acts_query ipaddr td True
      rwa [if_pos trivial] at hquery
  · exact acts_refl ipaddr td

theorem acts_recvQRY (now : ℚ) (ipaddr src : ℤ) (td : ToraDest) :
    Acts ipaddr td (td.recvQRY now ipaddr src) := by
  rw [recvQRY]
  split
  · exact acts_refl ipaddr td
  split
  · split
    · split
      · exact (Recast.refl td).announce (Or.inl rfl)
      · exact acts_refl ipaddr td
    · exact acts_refl ipaddr td
  · split
    · exact acts_updateHeight now ipaddr td _ _ _ _
    · exact acts_query ipaddr td (td.numActive > 1)

theorem acts_maintain (h : td.maintain now ipaddr = some r) : Acts ipaddr td r := by
  rw [maintain] at h
  split at h
  · split at h
    · cases h
      exact acts_refl ipaddr td
    · cases h
      exact acts_setNull now ipaddr td
  split at h
  · split at h
    · cases h
      exact acts_updateHeight now ipaddr td _ _ _ _
    · split at h
      · cases h
        exact acts_erase ipaddr td _ _
      · cases h
        exact acts_found now ipaddr td _ _ _ _
  · split at h
    · cases h
    · split at h
      · cases h
      · cases h
        exact acts_updateHeight now ipaddr td _ _ _ _

theorem foldl_pick (ok : ToraNeighbor → Bool) (better : ToraNeighbor → ToraNeighbor → Bool)
    (l : List ToraNeighbor) (m : Option ToraNeighbor) :
    (∀ tn, l.foldl (fun m tn => if ok tn && m.all fun m => better m tn then some tn else m) m = some tn →
      m = some tn ∨ tn ∈ l ∧ ok tn = true) ∧
    (l.foldl (fun m tn => if ok tn && m.all fun m => better m tn then some tn else m) m = none →
      m = none ∧ ∀ tn ∈ l, ok tn = false) := by
  induction l generalizing m with
  | nil => exact ⟨fun tn hm => Or.inl hm, fun hm => ⟨hm, fun _ hm => by cases hm⟩⟩
  | cons a l ih =>
    rw [foldl_cons]
    by_cases ha : (ok a && m.all fun m => better m a) = true
    · rw [if_pos ha]
      obtain ⟨hsome, hnone⟩ := ih (some a)
      refine ⟨fun tn hm => ?_, fun hm => by cases (hnone hm).1⟩
      rcases hsome tn hm with heq | ⟨hmem, hok⟩
      · cases heq
        exact Or.inr ⟨mem_cons_self, (Bool.and_eq_true_iff.1 ha).1⟩
      · exact Or.inr ⟨mem_cons_of_mem a hmem, hok⟩
    · rw [if_neg ha]
      obtain ⟨hsome, hnone⟩ := ih m
      refine ⟨fun tn hm => (hsome tn hm).imp id fun h => ⟨mem_cons_of_mem a h.1, h.2⟩, fun hm => ?_⟩
      obtain ⟨rfl, hl⟩ := hnone hm
      refine ⟨rfl, fun tn htn => ?_⟩
      rcases mem_cons.1 htn with rfl | htn
      · simpa using ha
      · exact hl tn htn

theorem nbMin_eq_some (h : td.nbMin ok = some tn) : tn ∈ td.nblist ∧ ok tn = true :=
  ((foldl_pick ok (fun m tn => decide (m.height.compare tn.height < 0)) td.nblist none).1 tn h).resolve_left
    (by simp)

theorem nbMin_ne_none (hmem : tn ∈ td.nblist) (hok : ok tn = true) : td.nbMin ok ≠ none := by
  intro h
  have hfalse := ((foldl_pick ok (fun m tn => decide (m.height.compare tn.height < 0)) td.nblist none).2 h).2
    tn hmem
  rw [hok] at hfalse
  cases hfalse

theorem maintain_ne_none (now : ℚ) (ipaddr : ℤ) (td : ToraDest) : td.maintain now ipaddr ≠ none := by
  rw [maintain]
  split
  · split
    · exact some_ne_none _
    · exact some_ne_none _
  split
  · split
    · exact some_ne_none _
    · split
      · exact some_ne_none _
      · exact some_ne_none _
  · rename_i _ href
    have hpick := foldl_pick (fun tn => !tn.height.isNull)
      (fun m tn => decide (m.height.compare tn.height > 0)) td.nblist none
    cases hmax : td.nbFindMaxHeight with
    | none =>
      -- without a height all reference levels are the same
      have hfilter : td.nblist.filter (fun tn => !tn.height.isNull) = [] :=
        filter_eq_nil_iff.2 fun tn htn => by simpa using (hpick.2 hmax).2 tn htn
      rw [nbCheckSameRef, hfilter] at href
      exact absurd rfl href
    | some n =>
      obtain ⟨hmem, hnull⟩ := (hpick.1 n hmax).resolve_left (by simp)
      dsimp only
      cases hmin : td.nbFindMinNonnullHeight n.height with
      | none => exact absurd hmin (nbMin_ne_none hmem (by simp [hnull]))
      | some m => exact some_ne_none _

theorem recv_ne_none (now : ℚ) (ipaddr src : ℤ) (td : ToraDest) (msg : ToraMsg) :
    td.recv now ipaddr src msg ≠ none := by
  cases msg with
  | qry dst => exact some_ne_none _
  | clr dst tau oid => exact some_ne_none _
  | upd dst h =>
    rw [recv, recvUPD]
    split
    · exact some_ne_none _
    · dsimp only
      split
      · exact some_ne_none _
      · split
        · exact maintain_ne_none now ipaddr _
        · exact some_ne_none _

theorem record_eq_none (hj : td.nbFind src = none) (h : Recast td td') : td'.record src = none := by
  have hnot : ∀ tn ∈ td'.nblist, tn.index ≠ src := by
    intro tn htn heq
    have hmem : src ∈ td.nblist.map ToraNeighbor.index := by
      rw [← h.nbs, ← heq]
      exact mem_map_of_mem htn
    obtain ⟨m, hm, hsrc⟩ := mem_map.1 hmem
    exact findKey_eq_none.1 hj m hm hsrc
  rw [record, nbFind, findKey_eq_none.2 hnot]
  rfl

/-- What a message of `src` leads to. -/
structure Hears (ipaddr src : ℤ) (msg : ToraMsg) (td : ToraDest) (r : ToraDest × List ToraMsg) : Prop where
  index : r.1.index = td.index
  nbs : r.1.nblist.map ToraNeighbor.index = td.nblist.map ToraNeighbor.index
  aligned : td.Aligned → r.1.Aligned
  own : r.1.height = td.height ∨ r.1.height.isNull = true ∨ r.1.height.id = ipaddr
  dst : ∀ m ∈ r.2, m.dst = td.index
  others : ∀ j h, j ≠ td.index → j ≠ src → r.1.record j = some h →
    h.isNull = true ∨ td.record j = some h
  sender : ∀ h, src ≠ td.index → r.1.record src = some h → h.isNull = true ∨
    msg.tells = none ∧ td.record src = some h ∨ msg.tells = some (some h)

/-- A height that changes is told. -/
def Reports (td : ToraDest) (r : ToraDest × List ToraMsg) : Prop :=
  r.1.height = td.height ∧ told r.2 = none ∨ told r.2 = some (some r.1.height) ∨ told r.2 = some none

/-- The height is erased by a CLR that is not passed on. -/
def Unreported (td : ToraDest) : ToraMsg → Prop
  | .clr _ tau oid => td.Clears tau oid ∧ ¬td.numActive > 1
  | _ => False

instance (td : ToraDest) (msg : ToraMsg) : Decidable (td.Unreported msg) := by
  cases msg <;> (unfold Unreported; infer_instance)

theorem Acts.hears (h : Acts ipaddr td r)
    (hmsg : msg.tells = none ∨ ∀ k, src ≠ td.index → r.1.record src = some k → k.isNull = true) :
    Hears ipaddr src msg td r := by
  refine ⟨h.index, h.nbs, h.aligned, h.own, h.dst, fun j k hj _ hk => h.record j k hj hk, fun k hsrc hk => ?_⟩
  rcases hmsg with hnone | hnull
  · exact (h.record src k hsrc hk).imp id fun hold => Or.inl ⟨hnone, hold⟩
  · exact Or.inl (hnull k hsrc hk)

theorem hears_recvUPD (dst : ℤ) (hr : td.recvUPD now ipaddr src h = some r) :
    Hears ipaddr src (.upd dst h) td r ∧ Reports td r := by
  rw [recvUPD] at hr
  cases htn : td.nbFind src with
  | none =>
    rw [htn] at hr
    cases hr
    have hnone : ∀ k, src ≠ td.index → td.record src = some k → k.isNull = true := by
      intro k _ hk
      rw [record_eq_none htn (Recast.refl td)] at hk
      cases hk
    exact ⟨(acts_refl ipaddr td).hears (Or.inr hnone), Or.inl ⟨rfl, rfl⟩⟩
  | some tn =>
    rw [htn] at hr
    -- the height of the sender is recorded first
    have hacts : Acts ipaddr (td.updateHeightNb tn h) r := by
      dsimp only at hr
      split at hr
      · cases hr
        exact acts_found now ipaddr _ _ _ _ _
      · split at hr
        · exact acts_maintain hr
        · cases hr
          exact acts_refl ipaddr _
    refine ⟨⟨hacts.index, hacts.nbs.trans (nbs_updateHeightNb tn h),
      fun ha => hacts.aligned (ha.updateHeightNb tn h), hacts.own, hacts.dst, fun j k hj hne hk => ?_,
      fun k hsrc hk => ?_⟩, hacts.told⟩
    · have hrec := hacts.record j k hj hk
      rwa [record_updateHeightNb htn, if_neg hne] at hrec
    · have hrec := hacts.record src k hsrc hk
      rw [record_updateHeightNb htn, if_pos rfl] at hrec
      exact hrec.imp id fun heq => Or.inr (congrArg some heq)

theorem record_forget {tau : ℚ} {oid : ℤ} (hh : (td.forget src tau oid).record src = some h) :
    h.isNull = true := by
  have hclear : ∀ tn : ToraNeighbor, tn.index = src → tn.clear.index = src := fun _ h => h
  have hindex : ∀ tn : ToraNeighbor, (if tn.height.tau = tau ∧ tn.height.oid = oid ∧ tn.height.r = 1
      then tn.clear else tn).index = tn.index := by
    intro tn
    split_ifs <;> rfl
  rw [record, nbFind, forget, findKey_map hindex, findKey_updateKey hclear, if_pos rfl, Option.map_map,
    Option.map_map] at hh
  obtain ⟨tn, -, rfl⟩ := map_eq_some_iff.1 hh
  dsimp only [Function.comp_apply]
  split_ifs
  · exact tn.clear.height.isNull_setNull
  · exact tn.height.isNull_setNull

theorem record_erase {j : ℤ} (hj : j ≠ td.index) (hh : td.erase.record j = some h) :
    h.isNull = true := by
  have hindex : ∀ tn : ToraNeighbor, (if tn.index = td.index then
      { tn with
        height := tn.height.setZero
        lnkStat := .dn }
      else tn.clear).index = tn.index := by
    intro tn
    split_ifs <;> rfl
  rw [record, nbFind, erase, findKey_map hindex, Option.map_map] at hh
  obtain ⟨tn, htn, rfl⟩ := map_eq_some_iff.1 hh
  have hne : tn.index ≠ td.index := (mem_of_findKey htn).2 ▸ hj
  dsimp only [Function.comp_apply]
  rw [if_neg hne]
  exact tn.height.isNull_setNull

theorem hears_recvCLR (now : ℚ) (ipaddr src dst : ℤ) (td : ToraDest) (tau : ℚ) (oid : ℤ) :
    Hears ipaddr src (.clr dst tau oid) td (td.recvCLR now ipaddr src tau oid) ∧
      (¬td.Unreported (.clr dst tau oid) → Reports td (td.recvCLR now ipaddr src tau oid)) := by
  rw [recvCLR]
  by_cases hclears : td.Clears tau oid
  · rw [if_pos hclears]
    have herase := erase_recast td
    refine ⟨⟨herase.index, herase.nbs, herase.aligned, Or.inr (Or.inl td.height.isNull_setNull), fun m hm => ?_,
      fun j k hj _ hk => herase.record j k hj hk, fun k hsrc hk => ?_⟩, fun hmore => ?_⟩
    · split_ifs at hm
      · rw [mem_singleton.1 hm]
        rfl
      · cases hm
    · exact Or.inl (record_erase hsrc hk)
    · have hpos : td.numActive > 1 := not_not.1 fun hle => hmore ⟨hclears, hle⟩
      rw [if_pos hpos]
      exact Or.inr (Or.inr rfl)
  · rw [if_neg hclears]
    cases htn : td.nbFind src with
    | none =>
      have hnone : ∀ k, src ≠ td.index → td.record src = some k → k.isNull = true := by
        intro k _ hk
        rw [record_eq_none htn (Recast.refl td)] at hk
        cases hk
      exact ⟨(acts_refl ipaddr td).hears (Or.inr hnone), fun _ => Or.inl ⟨rfl, rfl⟩⟩
    | some tn =>
      have hforget := forget_recast td src tau oid
      have hacts : Acts ipaddr (td.forget src tau oid)
          (if (td.forget src tau oid).numDown = 0 then
            if (td.forget src tau oid).numUp = 0 then
              if (td.forget src tau oid).height.isNull then (td.forget src tau oid, [])
              else announce now { td.forget src tau oid with
                height := (td.forget src tau oid).height.setNull }
            else announce now { (td.forget src tau oid).updateHeight now ipaddr 0 0 ipaddr with
              rtReq := false }
          else (td.forget src tau oid, [])) := by
        split
        · split
          · split
            · exact acts_refl ipaddr _
            · exact acts_setNull now ipaddr _
          · exact acts_found now ipaddr _ _ _ _ _
        · exact acts_refl ipaddr _
      refine ⟨(hacts.after hforget rfl).hears (Or.inr fun k hsrc hk => ?_), fun _ => hacts.told⟩
      exact (hacts.record src k hsrc hk).elim id record_forget

theorem hears_recv (hr : td.recv now ipaddr src msg = some r) :
    Hears ipaddr src msg td r ∧ (¬td.Unreported msg → Reports td r) ∧ (td.Unreported msg → r.2 = []) := by
  cases msg with
  | qry dst =>
    cases hr
    have hacts := acts_recvQRY now ipaddr src td
    exact ⟨hacts.hears (Or.inl rfl), fun _ => hacts.told, fun hf => absurd hf id⟩
  | upd dst h =>
    obtain ⟨hhears, hreports⟩ := hears_recvUPD dst hr
    exact ⟨hhears, fun _ => hreports, fun hf => absurd hf id⟩
  | clr dst tau oid =>
    cases hr
    obtain ⟨hhears, hreports⟩ := hears_recvCLR now ipaddr src dst td tau oid
    refine ⟨hhears, hreports, fun hun => ?_⟩
    rw [recvCLR, if_pos hun.1, if_neg hun.2]

end ToraDest

end Ns2.Tora
