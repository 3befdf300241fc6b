import Ns2.Tora.ToraHandlers

/-! What holds of the records of a TORA node, and what an event changes of its heights and of what it has
recorded of its neighbours. -/

namespace Ns2.Tora

open List

namespace ToraDest

variable {td td' : ToraDest} {now : ℚ} {id : ℤ}
variable {tn : ToraNeighbor}

/-- The record of a node of itself. -/
structure Selfless (td : ToraDest) : Prop where
  height : td.height.isNull = true
  numUp : td.numUp ≤ 0
  neighbors : ∀ tn ∈ td.nblist, tn.height.isNull = true ∧ tn.lnkStat = .un

/-- A neighbour that nothing is known of, or the destination. -/
def Blank (d : ℤ) (tn : ToraNeighbor) : Prop :=
  tn.index ≠ d → tn.height.isNull = true ∧ tn.lnkStat = .un

section

variable (td now id)

theorem nblist_nbAdd :
    ∃ tn, (td.nbAdd now id).nblist = tn :: td.nblist ∧ tn.index = id ∧ Blank td.index tn := by
  rw [nbAdd]
  split_ifs with hid
  · exact ⟨_, rfl, rfl, fun hne => absurd hid hne⟩
  · exact ⟨_, rfl, rfl, fun _ => ⟨Height.isNull_new id, rfl⟩⟩

@[simp] theorem nbAdd_index :
    (td.nbAdd now id).index = td.index := by
  rw [nbAdd]
  split_ifs <;> rfl

@[simp] theorem nbAdd_height :
    (td.nbAdd now id).height = td.height := by
  rw [nbAdd]
  split_ifs <;> rfl

@[simp] theorem nbAdd_numUp :
    (td.nbAdd now id).numUp = td.numUp := by
  rw [nbAdd]
  split_ifs <;> rfl

end

theorem record_nbAdd {j : ℤ} (hj : j ≠ td.index) {h : Height}
    (hh : (td.nbAdd now id).record j = some h) : h.isNull = true ∨ td.record j = some h := by
  obtain ⟨tn, hl, hindex, hblank⟩ := nblist_nbAdd td now id
  rw [record, nbFind, hl, findKey_cons] at hh
  split_ifs at hh with heq
  · cases hh
    exact Or.inl (hblank (heq ▸ hj)).1
  · exact Or.inr hh

theorem Aligned.nbAdd (ha : td.Aligned) (now : ℚ) (id : ℤ) : (td.nbAdd now id).Aligned := by
  obtain ⟨tn, hl, hindex, hblank⟩ := nblist_nbAdd td now id
  intro m hm hne hdn
  rw [nbAdd_height]
  rw [hl] at hm
  rw [nbAdd_index] at hne
  rcases mem_cons.1 hm with rfl | hm
  · rw [(hblank hne).2] at hdn
    cases hdn
  · exact ha m hm hne hdn

/-- The last downstream link is lost, and a reference level is defined. -/
def raises (td : ToraDest) (j : ℤ) : Bool :=
  (td.nbFind j).any fun tn => (td.nbRemove tn).numDown = 0 && (td.nbRemove tn).numUp > 0

/-- What `nb_del` does when the neighbours are different from each other. -/
structure Loses (now : ℚ) (j : ℤ) (td : ToraDest) (q : ToraDest × Bool) : Prop where
  index : q.1.index = td.index
  nbs : q.1.nblist.map ToraNeighbor.index =
    (eraseKey ToraNeighbor.index j td.nblist).map ToraNeighbor.index
  record : ∀ i k, i ≠ td.index → q.1.record i = some k → k.isNull = true ∨ td.record i = some k
  aligned : td.Aligned → q.1.Aligned
  height : q.2 = false ∧ q.1.height = td.height ∨ q.2 = true ∧ (q.1.height.isNull = true ∨
    q.1.height = ⟨now, td.index, 0, 0, td.index⟩ ∧ td.raises j = true)
  self : td.Selfless → q.1.Selfless

theorem Aligned.nbRemove (ha : td.Aligned) (tn : ToraNeighbor) : (td.nbRemove tn).Aligned :=
  fun m hm hne => ha m (mem_of_mem_eraseP hm) hne

theorem record_nbRemove (hnodup : (td.nblist.map ToraNeighbor.index).Nodup) {i : ℤ} {k : Height}
    (hk : (td.nbRemove tn).record i = some k) : td.record i = some k := by
  rw [record, nbFind, nbRemove, findKey_eraseKey hnodup] at hk
  split_ifs at hk
  · cases hk
  · exact hk

theorem Selfless.nbRemove (h : td.Selfless) (htn : tn ∈ td.nblist) : (td.nbRemove tn).Selfless := by
  refine ⟨h.height, ?_, fun m hm => h.neighbors m (mem_of_mem_eraseP hm)⟩
  have hup := h.numUp
  rw [ToraDest.nbRemove]
  dsimp only
  rw [(h.neighbors tn htn).2]
  simpa using hup

theorem Selfless.nbLost (h : td.Selfless) (now : ℚ) : (td.nbLost now).Selfless := by
  have hlinks : ∀ tn ∈ (td.updateHeight (-1) (-1) (-1) (-1) td.index).nblist,
      tn.height.isNull = true ∧ tn.lnkStat = .un := by
    intro m hm
    obtain ⟨tn, htn, rfl⟩ := mem_map.1 hm
    have hnull := (h.neighbors tn htn).1
    exact ⟨hnull, by rw [ToraNeighbor.updateLinkStatus, if_pos hnull]⟩
  have hcount : ∀ l : List ToraNeighbor, (∀ tn ∈ l, tn.lnkStat = .un) → count .up l = 0 := by
    intro l
    induction l with
    | nil => exact fun _ => rfl
    | cons tn l ih =>
      intro hl
      rw [count, ih fun m hm => hl m (mem_cons_of_mem tn hm), hl tn mem_cons_self]
      rfl
  rw [ToraDest.nbLost, if_neg h.numUp.not_gt]
  exact ⟨rfl, (hcount _ fun tn htn => (hlinks tn htn).2).le, hlinks⟩

theorem nbLost_recast (td : ToraDest) (now : ℚ) : Recast td (td.nbLost now) := by
  rw [nbLost]
  split_ifs
  · exact updateHeight_recast td _ _ _ _ _
  · exact updateHeight_recast td _ _ _ _ _

theorem loses_nbDel (now : ℚ) (j : ℤ) (hnodup : (td.nblist.map ToraNeighbor.index).Nodup) :
    Loses now j td (td.nbDel now j) := by
  rw [nbDel]
  cases hj : td.nbFind j with
  | none =>
    have herase : eraseKey ToraNeighbor.index j td.nblist = td.nblist := by
      refine eraseP_of_forall_not fun tn htn => ?_
      simpa using findKey_eq_none.1 hj tn htn
    exact ⟨rfl, by rw [herase], fun _ _ _ hk => Or.inr hk, id, Or.inl ⟨rfl, rfl⟩, id⟩
  | some tn =>
    obtain ⟨hmem, hindex⟩ := mem_of_findKey hj
    have hnbs : (td.nbRemove tn).nblist.map ToraNeighbor.index =
        (eraseKey ToraNeighbor.index j td.nblist).map ToraNeighbor.index := by
      rw [← hindex]
      rfl
    dsimp only
    by_cases hdown : (td.nbRemove tn).numDown = 0
    · rw [if_pos hdown]
      have hrecast := nbLost_recast (td.nbRemove tn) now
      refine ⟨hrecast.index, hrecast.nbs.trans hnbs, fun i k hi hk => ?_,
        fun ha => hrecast.aligned (ha.nbRemove tn), Or.inr ⟨rfl, ?_⟩, fun hself => (hself.nbRemove hmem).nbLost now⟩
      · exact (hrecast.record i k hi hk).imp id (record_nbRemove hnodup)
      · rw [nbLost]
        split_ifs with hup
        · refine Or.inr ⟨rfl, ?_⟩
          rw [raises, hj, Option.any_some]
          simp [hdown, hup]
        · exact Or.inl rfl
    · rw [if_neg hdown]
      exact ⟨rfl, hnbs, fun i k _ hk => Or.inr (record_nbRemove hnodup hk), fun ha => ha.nbRemove tn,
        Or.inl ⟨rfl, rfl⟩, fun hself => hself.nbRemove hmem⟩

end ToraDest

namespace ToraAgent

variable {a : ToraAgent} {td : ToraDest} {now : ℚ} {d : ℤ} {r : ToraAgent × List ToraMsg}
variable {k : Height} {msg : ToraMsg}
variable {l : List ToraMsg} {f : ToraDest → ToraDest} {rec : Option Height} {src : ℤ}
  {links : List ℤ}

/-- The record of a destination: its neighbours are those of the node, and a height that is not null has
the id of the node, or it is the level of a link that was lost. -/
structure DestOk (a : ToraAgent) (td : ToraDest) : Prop where
  nodup : (td.nblist.map ToraNeighbor.index).Nodup
  nbs : ∀ j, j ∈ td.nblist.map ToraNeighbor.index ↔ j ∈ a.biLinks
  aligned : td.Aligned
  own : td.height.isNull = true ∨ td.height.id = a.ipaddr ∨
    ∃ tau, td.height = ⟨tau, td.index, 0, 0, td.index⟩
  self : td.index = a.ipaddr → td.Selfless

structure Ok (a : ToraAgent) : Prop where
  links : a.biLinks.Nodup
  notSelf : a.ipaddr ∉ a.biLinks
  nodup : (a.dstlist.map ToraDest.index).Nodup
  dest : ∀ td ∈ a.dstlist, a.DestOk td

/-- The height that is recorded of the neighbour `j` for the destination `d`. -/
def record (a : ToraAgent) (d j : ℤ) : Option Height := (a.dstFind d).bind fun td => td.record j

/-- A new destination with the neighbours `l`. -/
structure Fresh (d : ℤ) (l : List ℤ) (td : ToraDest) : Prop where
  index : td.index = d
  height : td.height = .new d
  numUp : td.numUp = 0
  nbs : td.nblist.map ToraNeighbor.index = l
  blank : ∀ tn ∈ td.nblist, ToraDest.Blank d tn

theorem Fresh.nbAdd {l : List ℤ} (h : Fresh d l td) (now : ℚ) (j : ℤ) :
    Fresh d (j :: l) (td.nbAdd now j) := by
  obtain ⟨tn, hl, hindex, hblank⟩ := td.nblist_nbAdd now j
  refine ⟨?_, ?_, ?_, ?_, fun m hm => ?_⟩
  · rw [ToraDest.nbAdd_index, h.index]
  · rw [ToraDest.nbAdd_height, h.height]
  · rw [ToraDest.nbAdd_numUp, h.numUp]
  · rw [hl, map_cons, hindex, h.nbs]
  · rw [hl] at hm
    rcases mem_cons.1 hm with rfl | hm
    · exact h.index ▸ hblank
    · exact h.blank m hm

theorem fresh_dstNew (a : ToraAgent) (now : ℚ) (d : ℤ) : Fresh d a.biLinks.reverse (a.dstNew now d) := by
  have hfold : ∀ (l l' : List ℤ) (td : ToraDest), Fresh d l' td →
      Fresh d (l.reverse ++ l') (l.foldl (fun td j => td.nbAdd now j) td) := by
    intro l
    induction l with
    | nil => exact fun _ _ h => h
    | cons j l ih =>
      intro l' td h
      rw [foldl_cons, reverse_cons, append_assoc]
      exact ih (j :: l') _ (h.nbAdd now j)
  have hnew : Fresh d [] (.new d) := ⟨rfl, rfl, rfl, rfl, fun _ hm => by cases hm⟩
  have h := hfold a.biLinks [] _ hnew
  rwa [append_nil] at h

theorem Ok.destOk_dstNew (h : a.Ok) (now : ℚ) (d : ℤ) : a.DestOk (a.dstNew now d) := by
  have hfresh := fresh_dstNew a now d
  refine ⟨?_, fun j => ?_, fun tn htn hne hdn => ?_, ?_, fun hself => ⟨?_, ?_, fun tn htn => ?_⟩⟩
  · rw [hfresh.nbs]
    exact nodup_reverse.2 h.links
  · rw [hfresh.nbs, mem_reverse]
  · rw [hfresh.index] at hne
    rw [(hfresh.blank tn htn hne).2] at hdn
    cases hdn
  · rw [hfresh.height]
    exact Or.inl (Height.isNull_new d)
  · rw [hfresh.height]
    exact Height.isNull_new d
  · exact hfresh.numUp.le
  · refine hfresh.blank tn htn fun heq => h.notSelf ?_
    rw [hfresh.index] at hself
    rw [← hself, ← heq, ← mem_reverse, ← hfresh.nbs]
    exact mem_map_of_mem htn

theorem record_dstNew (now : ℚ) {j : ℤ} (hj : j ≠ d) (hk : (a.dstNew now d).record j = some k) :
    k.isNull = true := by
  obtain ⟨tn, htn, rfl⟩ := Option.map_eq_some_iff.1 hk
  obtain ⟨hmem, hindex⟩ := mem_of_findKey htn
  exact ((fresh_dstNew a now d).blank tn hmem (hindex ▸ hj)).1

/-- The record that `atDst` finds or makes. -/
def dst (a : ToraAgent) (now : ℚ) (d : ℤ) : ToraDest := (a.dstFind d).getD (a.dstNew now d)

theorem dst_index (a : ToraAgent) (now : ℚ) (d : ℤ) : (a.dst now d).index = d := by
  rw [dst]
  cases hd : a.dstFind d with
  | none => exact (fresh_dstNew a now d).index
  | some td => exact (mem_of_findKey hd).2

theorem dst_height (a : ToraAgent) (now : ℚ) (d : ℤ) : (a.dst now d).height = a.height d := by
  rw [dst, height]
  cases a.dstFind d with
  | none => exact (fresh_dstNew a now d).height
  | some td => rfl

theorem Ok.destOk_dst (h : a.Ok) (now : ℚ) (d : ℤ) : a.DestOk (a.dst now d) := by
  rw [dst]
  cases hd : a.dstFind d with
  | none => exact h.destOk_dstNew now d
  | some td => exact h.dest td (mem_of_findKey hd).1

theorem record_dst {j : ℤ} (hj : j ≠ d) (hk : (a.dst now d).record j = some k) :
    k.isNull = true ∨ a.record d j = some k := by
  rw [dst] at hk
  rw [record]
  cases hd : a.dstFind d with
  | none =>
    rw [hd] at hk
    exact Or.inl (record_dstNew now hj hk)
  | some td =>
    rw [hd] at hk
    exact Or.inr hk

/-- Only the record of `d` is different, and it is `td`. -/
structure Puts (a : ToraAgent) (d : ℤ) (td : ToraDest) (a' : ToraAgent) : Prop where
  ipaddr : a'.ipaddr = a.ipaddr
  biLinks : a'.biLinks = a.biLinks
  dstFind : ∀ d', a'.dstFind d' = if d' = d then some td else a.dstFind d'
  nodup : (a.dstlist.map ToraDest.index).Nodup → (a'.dstlist.map ToraDest.index).Nodup
  mem : ∀ td' ∈ a'.dstlist, td' = td ∨ td' ∈ a.dstlist

theorem puts_atDst {f : ToraDest → Option (ToraDest × List ToraMsg)}
    (hf : ∀ q, f (a.dst now d) = some q → q.1.index = d) (hr : a.atDst now d f = some r) :
    ∃ q, f (a.dst now d) = some q ∧ q.2 = r.2 ∧ Puts a d q.1 r.1 := by
  rw [atDst] at hr
  rw [dst] at hf ⊢
  cases hd : a.dstFind d with
  | none =>
    rw [hd] at hr hf
    obtain ⟨q, hq, rfl⟩ := Option.map_eq_some_iff.1 hr
    have hindex : q.1.index = d := hf q hq
    refine ⟨q, hq, rfl, rfl, rfl, fun d' => ?_, fun hnodup => ?_, fun td' htd' => mem_cons.1 htd'⟩
    · rw [dstFind, findKey_cons, hindex]
      by_cases heq : d' = d
      · rw [if_pos heq.symm, if_pos heq]
      · rw [if_neg (Ne.symm heq), if_neg heq]
        rfl
    · refine nodup_cons.2 ⟨fun hmem => ?_, hnodup⟩
      obtain ⟨td, htd, heq⟩ := mem_map.1 hmem
      exact findKey_eq_none.1 hd td htd (heq.trans hindex)
  | some td =>
    rw [hd] at hr hf
    obtain ⟨q, hq, rfl⟩ := Option.map_eq_some_iff.1 hr
    have hkey : ∀ td' : ToraDest, td'.index = d → q.1.index = d := fun _ _ => hf q hq
    refine ⟨q, hq, rfl, rfl, rfl, fun d' => ?_, fun hnodup => ?_, fun td' htd' => ?_⟩
    · rw [dstFind, findKey_updateKey hkey]
      by_cases heq : d' = d
      · rw [if_pos heq, if_pos heq, ← dstFind, hd]
        rfl
      · rw [if_neg heq, if_neg heq]
        rfl
    · rw [map_updateKey hkey]
      exact hnodup
    · rcases of_mem_updateKey htd' with hmem | ⟨-, -, -, heq⟩
      · exact Or.inr hmem
      · exact Or.inl heq

theorem DestOk.congr {a' : ToraAgent} (h : a.DestOk td) (hip : a'.ipaddr = a.ipaddr)
    (hlinks : a'.biLinks = a.biLinks) : a'.DestOk td :=
  ⟨h.nodup, fun j => hlinks ▸ h.nbs j, h.aligned, hip ▸ h.own, hip ▸ h.self⟩

variable {a' : ToraAgent}

theorem Puts.ok (hp : Puts a d td a') (h : a.Ok) (htd : a.DestOk td) : a'.Ok := by
  refine ⟨hp.biLinks ▸ h.links, ?_, hp.nodup h.nodup, fun td' htd' => ?_⟩
  · rw [hp.ipaddr, hp.biLinks]
    exact h.notSelf
  · rcases hp.mem td' htd' with rfl | hmem
    · exact htd.congr hp.ipaddr hp.biLinks
    · exact (h.dest td' hmem).congr hp.ipaddr hp.biLinks

theorem Puts.height (hp : Puts a d td a') (d' : ℤ) :
    a'.height d' = if d' = d then td.height else a.height d' := by
  rw [ToraAgent.height, hp.dstFind]
  split_ifs <;> rfl

theorem Puts.record (hp : Puts a d td a') (d' j : ℤ) :
    a'.record d' j = if d' = d then td.record j else a.record d' j := by
  rw [ToraAgent.record, hp.dstFind]
  split_ifs <;> rfl

theorem Ok.mem_biLinks_of_record (h : a.Ok) {j : ℤ} (hk : a.record d j = some k) :
    j ∈ a.biLinks := by
  obtain ⟨td, htd, hk⟩ := Option.bind_eq_some_iff.1 hk
  obtain ⟨tn, htn, -⟩ := Option.map_eq_some_iff.1 hk
  obtain ⟨hmem, hindex⟩ := mem_of_findKey htn
  exact ((h.dest td (mem_of_findKey htd).1).nbs j).1 (hindex ▸ mem_map_of_mem hmem)

/-- The messages for a destination. -/
def toward (d : ℤ) (l : List ToraMsg) : List ToraMsg := l.filter fun m => m.dst = d

theorem toward_eq_self (h : ∀ m ∈ l, m.dst = d) : toward d l = l :=
  filter_eq_self.2 fun m hm => decide_eq_true (h m hm)

theorem toward_eq_nil (h : ∀ m ∈ l, m.dst ≠ d) : toward d l = [] :=
  filter_eq_nil_iff.2 fun m hm => by simpa using h m hm

/-- What will be recorded of the height of a node for `d`, when `rec` is and `l` is on the way. -/
def known (rec : Option Height) (l : List ToraMsg) (d : ℤ) : Option Height :=
  (told (toward d l)).getD rec

/-- An event at a node: `know d j` is what it may have recorded of `j` for `d`. -/
structure Outcome (a : ToraAgent) (know : ℤ → ℤ → Option Height) (r : ToraAgent × List ToraMsg) :
    Prop where
  ok : r.1.Ok
  ipaddr : r.1.ipaddr = a.ipaddr
  record : ∀ d j k, j ≠ d → r.1.record d j = some k → k.isNull = true ∨ know d j = some k

/-- For the destination `d` the height is as before and nothing is told of it, or its last value is told,
or that it is erased. -/
def Reports (a : ToraAgent) (r : ToraAgent × List ToraMsg) (d : ℤ) : Prop :=
  r.1.height d = a.height d ∧ told (toward d r.2) = none ∨
    told (toward d r.2) = some (some (r.1.height d)) ∨ told (toward d r.2) = some none

theorem reports_of_ne {q : ToraDest} {d' : ℤ} (hp : Puts a d q r.1) (hdst : ∀ m ∈ r.2, m.dst = d)
    (hne : d' ≠ d) : Reports a r d' := by
  left
  rw [hp.height, if_neg hne, toward_eq_nil fun m hm heq => hne (heq.symm.trans (hdst m hm))]
  exact ⟨rfl, rfl⟩

theorem rtResolve_eq (td : ToraDest) : ∃ b, td.rtResolve.1 = { td with rtReq := b } := by
  rw [ToraDest.rtResolve]
  split
  · split_ifs
    · exact ⟨td.rtReq, rfl⟩
    · exact ⟨true, rfl⟩
  · exact ⟨td.rtReq, rfl⟩

theorem Ok.rtResolve (h : a.Ok) (hr : a.rtResolve now d = some r) :
    Outcome a a.record r ∧ r.1.biLinks = a.biLinks ∧
      ∀ d', r.1.height d' = a.height d' ∧ told (toward d' r.2) = none := by
  have hindex := a.dst_index now d
  obtain ⟨q, hq, hout, hp⟩ := puts_atDst (fun q hq => by
    obtain rfl := Option.some.inj hq
    obtain ⟨b, heq⟩ := rtResolve_eq (a.dst now d)
    rw [heq]
    exact hindex) hr
  obtain rfl := Option.some.inj hq
  have hacts := ToraDest.acts_rtResolve a.ipaddr (a.dst now d)
  obtain ⟨b, heq⟩ := rtResolve_eq (a.dst now d)
  have hdst := h.destOk_dst now d
  have hheight : ∀ d', r.1.height d' = a.height d' := by
    intro d'
    rw [hp.height]
    split_ifs with hd
    · rw [heq, hd]
      exact a.dst_height now d
    · rfl
  refine ⟨⟨hp.ok h ?_, hp.ipaddr, fun d' j k hj hk => ?_⟩, hp.biLinks, fun d' => ⟨hheight d', ?_⟩⟩
  · rw [heq]
    exact ⟨hdst.nodup, hdst.nbs, hdst.aligned, hdst.own, fun hself =>
      ⟨(hdst.self hself).height, (hdst.self hself).numUp, (hdst.self hself).neighbors⟩⟩
  · rw [hp.record] at hk
    split_ifs at hk with hd
    · subst hd
      rw [heq] at hk
      exact record_dst hj hk
    · exact Or.inr hk
  · by_cases hd : d' = d
    · subst hd
      rw [toward_eq_self (fun m hm => (hacts.dst m (hout ▸ hm)).trans hindex), ← hout, ToraDest.rtResolve]
      split
      · split_ifs <;> rfl
      · rfl
    · rw [toward_eq_nil fun m hm heq => hd (heq.symm.trans ((hacts.dst m (hout ▸ hm)).trans hindex))]
      rfl

theorem Ok.record_self (h : a.Ok) {j : ℤ} (hk : a.record a.ipaddr j = some k) :
    k.isNull = true := by
  obtain ⟨td, htd, hk⟩ := Option.bind_eq_some_iff.1 hk
  obtain ⟨hmem, hindex⟩ := mem_of_findKey htd
  obtain ⟨tn, htn, rfl⟩ := Option.map_eq_some_iff.1 hk
  exact ((((h.dest td hmem).self hindex).neighbors tn) (mem_of_findKey htn).1).1

theorem known_singleton_of_ne (hd : msg.dst ≠ d) : known rec [msg] d = rec := by
  rw [known, toward_eq_nil fun m hm => by rw [mem_singleton.1 hm]; exact hd]
  rfl

theorem known_singleton (hd : msg.dst = d) : known rec [msg] d = msg.tells.getD rec := by
  rw [known, toward_eq_self fun m hm => by rw [mem_singleton.1 hm]; exact hd, told]
  cases h : msg.tells with
  | none => rw [filterMap_cons_none h]; rfl
  | some told => rw [filterMap_cons_some h]; rfl

theorem DestOk.hears {q : ToraDest × List ToraMsg} (h : a.DestOk td) (hself : td.index ≠ a.ipaddr)
    (hq : ToraDest.Hears a.ipaddr src msg td q) : a.DestOk q.1 := by
  refine ⟨hq.nbs ▸ h.nodup, fun j => hq.nbs ▸ h.nbs j, hq.aligned h.aligned, ?_, fun hs => ?_⟩
  · rcases hq.own with heq | hnull | hid
    · rw [heq, hq.index]
      exact h.own
    · exact Or.inl hnull
    · exact Or.inr (Or.inl hid)
  · exact absurd (hq.index ▸ hs) hself

theorem Ok.recvTORA (h : a.Ok) (hr : a.recvTORA now src msg = some r) :
    Outcome a (fun d j => if j = src then known (a.record d j) [msg] d else a.record d j) r ∧
      r.1.biLinks = a.biLinks ∧
      (∀ d, r.1.height d = a.height d ∨ (r.1.height d).isNull = true ∨
        (r.1.height d).id = a.ipaddr ∧ d ≠ a.ipaddr) ∧
      ∀ d, Reports a r d ∨
        r.2 = [] ∧ msg.dst = d ∧ d ≠ a.ipaddr ∧ (a.dst now d).Unreported msg := by
  rw [ToraAgent.recvTORA] at hr
  by_cases hself : msg.dst = a.ipaddr
  · rw [if_pos hself] at hr
    cases hr
    refine ⟨⟨h, rfl, fun d j k _ hk => ?_⟩, rfl, fun _ => Or.inl rfl,
      fun d => Or.inl (Or.inl ⟨rfl, rfl⟩)⟩
    by_cases hd : msg.dst = d
    · rw [← hd, hself] at hk
      exact Or.inl (h.record_self hk)
    · right
      rw [known_singleton_of_ne hd, ite_self]
      exact hk
  · rw [if_neg hself] at hr
    have hindex := a.dst_index now msg.dst
    obtain ⟨q, hq, hout, hp⟩ := puts_atDst
      (fun q hq => (ToraDest.hears_recv hq).1.index.trans hindex) hr
    obtain ⟨hhears, hreports, hquiet⟩ := ToraDest.hears_recv hq
    have hdst := h.destOk_dst now msg.dst
    have hout' : ∀ m ∈ r.2, m.dst = msg.dst := fun m hm => (hhears.dst m (hout ▸ hm)).trans hindex
    refine ⟨⟨hp.ok h (hdst.hears (hindex.symm ▸ hself) hhears), hp.ipaddr, fun d j k hj hk => ?_⟩,
      hp.biLinks, fun d => ?_, fun d => ?_⟩
    · rw [hp.record] at hk
      split_ifs at hk with hd
      · subst hd
        by_cases hsrc : j = src
        · subst hsrc
          rw [if_pos rfl, known_singleton rfl]
          rcases hhears.sender k (hindex.symm ▸ hj) hk with hnull | ⟨hnone, hold⟩ | htells
          · exact Or.inl hnull
          · rw [hnone]
            exact record_dst hj hold
          · rw [htells]
            exact Or.inr rfl
        · rw [if_neg hsrc]
          rcases hhears.others j k (hindex.symm ▸ hj) hsrc hk with hnull | hold
          · exact Or.inl hnull
          · exact record_dst hj hold
      · rw [known_singleton_of_ne (Ne.symm hd), ite_self]
        exact Or.inr hk
    · rw [hp.height]
      split_ifs with hd
      · subst hd
        rw [← a.dst_height now msg.dst]
        exact hhears.own.imp id fun hown => hown.imp id fun hid => ⟨hid, hself⟩
      · exact Or.inl rfl
    · by_cases heq : d = msg.dst
      · subst heq
        by_cases hun : (a.dst now msg.dst).Unreported msg
        · exact Or.inr ⟨hout ▸ hquiet hun, rfl, hself, hun⟩
        · left
          rw [Reports, hp.height, if_pos rfl, toward_eq_self hout', ← hout, ← a.dst_height now msg.dst]
          exact hreports hun
      · exact Or.inl (reports_of_ne hp hout' heq)

theorem outcome_map {out : List ToraMsg} (h : a.Ok) (hlinks : links.Nodup)
    (hself : a.ipaddr ∉ links) (hindex : ∀ td, (f td).index = td.index)
    (hf : ∀ td, a.DestOk td → DestOk ⟨a.ipaddr, a.dstlist.map f, links⟩ (f td))
    (hrec : ∀ td, a.DestOk td → ∀ i k, i ≠ td.index → (f td).record i = some k →
      k.isNull = true ∨ td.record i = some k) :
    Outcome a a.record (⟨a.ipaddr, a.dstlist.map f, links⟩, out) := by
  refine ⟨⟨hlinks, hself, ?_, fun td htd => ?_⟩, rfl, fun d i k hi hk => ?_⟩
  · rw [map_map]
    have hmap : a.dstlist.map (ToraDest.index ∘ f) = a.dstlist.map ToraDest.index :=
      map_congr_left fun td _ => hindex td
    exact hmap ▸ h.nodup
  · obtain ⟨old, hmem, rfl⟩ := mem_map.1 htd
    exact hf old (h.dest old hmem)
  · obtain ⟨new, hfind, hk⟩ := Option.bind_eq_some_iff.1 hk
    rw [dstFind, findKey_map hindex] at hfind
    obtain ⟨old, hold, rfl⟩ := Option.map_eq_some_iff.1 hfind
    obtain ⟨hmem, hd⟩ := mem_of_findKey hold
    refine (hrec old (h.dest old hmem) i k (hd ▸ hi) hk).imp id fun hk' => ?_
    rw [record, dstFind, hold]
    exact hk'

theorem height_map (hindex : ∀ td, (f td).index = td.index) (d : ℤ) :
    height ⟨a.ipaddr, a.dstlist.map f, links⟩ d =
      ((a.dstFind d).map fun td => (f td).height).getD (.new d) := by
  rw [height, dstFind, findKey_map hindex, ← dstFind]
  cases a.dstFind d <;> rfl

variable {j : ℤ}

theorem Ok.rtNotifyLinkUP (h : a.Ok) (now : ℚ) (hj : j ≠ a.ipaddr) (hnew : j ∉ a.biLinks) :
    Outcome a a.record (a.rtNotifyLinkUP now j) ∧ ∀ d, (a.rtNotifyLinkUP now j).1.height d = a.height d ∧
      told (toward d (a.rtNotifyLinkUP now j).2) = none := by
  have hindex : ∀ td : ToraDest, (if (td.nbFind j).isNone then td.nbAdd now j else td).index =
      td.index := by
    intro td
    split_ifs
    · exact td.nbAdd_index now j
    · rfl
  have hnone : ∀ td, a.DestOk td → (td.nbFind j).isNone = true := by
    intro td htd
    rw [Option.isNone_iff_eq_none, ToraDest.nbFind, findKey_eq_none]
    exact fun tn htn heq => hnew ((htd.nbs j).1 (heq ▸ mem_map_of_mem htn))
  refine ⟨outcome_map h (nodup_cons.2 ⟨hnew, h.links⟩) ?_ hindex (fun td htd => ?_)
    fun td htd i k hi hk => ?_, fun d => ⟨?_, ?_⟩⟩
  · rw [mem_cons, not_or]
    exact ⟨hj.symm, h.notSelf⟩
  · rw [if_pos (hnone td htd)]
    obtain ⟨tn, hl, htn, hblank⟩ := td.nblist_nbAdd now j
    refine ⟨?_, fun i => ?_, htd.aligned.nbAdd now j, ?_, fun hself => ⟨?_, ?_, fun m hm => ?_⟩⟩
    · rw [hl, map_cons, htn]
      exact nodup_cons.2 ⟨fun hmem => hnew ((htd.nbs j).1 hmem), htd.nodup⟩
    · rw [hl, map_cons, htn, mem_cons, mem_cons, htd.nbs]
    · rw [td.nbAdd_height, td.nbAdd_index]
      exact htd.own
    · rw [td.nbAdd_height]
      rw [td.nbAdd_index] at hself
      exact (htd.self hself).height
    · rw [td.nbAdd_numUp]
      rw [td.nbAdd_index] at hself
      exact (htd.self hself).numUp
    · rw [td.nbAdd_index] at hself
      rw [hl] at hm
      rcases mem_cons.1 hm with rfl | hm
      · exact hblank fun heq => hj (htn.symm.trans (heq.trans hself))
      · exact (htd.self hself).neighbors m hm
  · rw [if_pos (hnone td htd)] at hk
    exact ToraDest.record_nbAdd hi hk
  · rw [ToraAgent.rtNotifyLinkUP, height_map hindex, height]
    cases a.dstFind d with
    | none => rfl
    | some td =>
      rw [Option.map_some, Option.getD_some]
      split_ifs
      · exact td.nbAdd_height now j
      · rfl
  · have hqry : ∀ l : List ToraDest, (toward d (l.map ToraDest.sendQRY)).filterMap ToraMsg.tells = [] := by
      intro l
      rw [filterMap_eq_nil_iff]
      intro m hm
      obtain ⟨td, -, rfl⟩ := mem_map.1 (mem_of_mem_filter hm)
      rfl
    rw [ToraAgent.rtNotifyLinkUP, told, hqry]
    rfl

/-- The new height of a node that loses a link, and where it comes from. -/
def Lowered (a : ToraAgent) (now : ℚ) (j d : ℤ) (new : Height) : Prop :=
  new = a.height d ∨ new.isNull = true ∨ d ≠ a.ipaddr ∧ new = ⟨now, d, 0, 0, d⟩ ∧
    ∃ td ∈ a.dstlist, td.index = d ∧ td.raises j = true

theorem Ok.rtNotifyLinkDN (h : a.Ok) (now : ℚ) (j : ℤ) :
    Outcome a a.record (a.rtNotifyLinkDN now j) ∧ ∀ d, Reports a (a.rtNotifyLinkDN now j) d ∧
      Lowered a now j d ((a.rtNotifyLinkDN now j).1.height d) := by
  have hindex : ∀ td : ToraDest, (td.nbDel now j).1.index = td.index := by
    intro td
    rw [ToraDest.nbDel]
    split
    · rfl
    · dsimp only
      split_ifs
      · exact (ToraDest.nbLost_recast _ now).index
      · rfl
  have hloses : ∀ td, a.DestOk td → ToraDest.Loses now j td (td.nbDel now j) :=
    fun td htd => ToraDest.loses_nbDel now j htd.nodup
  refine ⟨outcome_map h (h.links.erase j) (fun hmem => h.notSelf (mem_of_mem_erase hmem)) hindex
    (fun td htd => ?_) fun td htd => (hloses td htd).record, fun d => ?_⟩
  · have hq := hloses td htd
    refine ⟨?_, fun i => ?_, hq.aligned htd.aligned, ?_, fun hself => hq.self (htd.self (hq.index ▸ hself))⟩
    · rw [hq.nbs]
      exact nodup_eraseKey htd.nodup
    · rw [hq.nbs, h.links.mem_erase_iff, ← htd.nbs, mem_map, mem_map]
      constructor
      · rintro ⟨tn, htn, rfl⟩
        obtain ⟨hmem, hne⟩ := (mem_eraseKey htd.nodup).1 htn
        exact ⟨hne, tn, hmem, rfl⟩
      · rintro ⟨hne, tn, hmem, rfl⟩
        exact ⟨tn, (mem_eraseKey htd.nodup).2 ⟨hmem, hne⟩, rfl⟩
    · rw [hq.index]
      rcases hq.height with ⟨-, heq⟩ | ⟨-, hnull | ⟨heq, -⟩⟩
      · rw [heq]
        exact htd.own
      · exact Or.inl hnull
      · exact Or.inr (Or.inr ⟨now, heq⟩)
  · have hsends : ∀ (td : ToraDest) (m : ToraMsg),
        (if (td.nbDel now j).2 then some (td.nbDel now j).1.sendUPD else none) = some m →
          m.dst = td.index := by
      intro td m hm
      split_ifs at hm
      cases hm
      exact hindex td
    have hout : toward d (a.rtNotifyLinkDN now j).2 = ((a.dstFind d).bind fun td =>
        if (td.nbDel now j).2 then some (td.nbDel now j).1.sendUPD else none).toList :=
      filter_filterMap_eq_toList h.nodup hsends
    have hheight : (a.rtNotifyLinkDN now j).1.height d =
        ((a.dstFind d).map fun td => (td.nbDel now j).1.height).getD (.new d) := height_map hindex d
    rw [Reports, hout, hheight, height]
    cases hd : a.dstFind d with
    | none => exact ⟨Or.inl ⟨rfl, rfl⟩, Or.inl (by rw [height, hd]; rfl)⟩
    | some td =>
      obtain ⟨hmem, htd⟩ := mem_of_findKey hd
      have hq := hloses td (h.dest td hmem)
      rw [Option.bind_some, Option.map_some, Option.getD_some]
      rcases hq.height with ⟨hlost, heq⟩ | ⟨hlost, hnew⟩
      · rw [if_neg (by rw [hlost]; decide)]
        exact ⟨Or.inl ⟨heq, rfl⟩, Or.inl (by rw [heq, height, hd])⟩
      · rw [if_pos hlost]
        refine ⟨Or.inr (Or.inl rfl), Or.inr ?_⟩
        by_cases hself : td.index = a.ipaddr
        · exact Or.inl (hq.self ((h.dest td hmem).self hself)).height
        · rw [htd] at hnew
          exact hnew.imp id fun hraise => ⟨htd ▸ hself, hraise.1, td, hmem, htd, hraise.2⟩

end ToraAgent

end Ns2.Tora
