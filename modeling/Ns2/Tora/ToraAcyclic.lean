import Ns2.Tora.ToraNodes

/-! The routes of TORA have no cycles when no message is on the way, as long as no node takes the height of
another one, and every height that changes is told to those who have it. -/

namespace Ns2.Tora

open ToraAgent (known)

variable {d : ℤ} {rec : Option Height}

theorem toward_append (d : ℤ) (l l' : List ToraMsg) :
    ToraAgent.toward d (l ++ l') = ToraAgent.toward d l ++ ToraAgent.toward d l' :=
  List.filter_append l l'

theorem told_append (l l' : List ToraMsg) : told (l ++ l') = (told l').or (told l) := by
  rw [told, List.filterMap_append, List.getLast?_append]
  rfl

theorem known_append (rec : Option Height) (l l' : List ToraMsg) (d : ℤ) :
    known rec (l ++ l') d = known (known rec l d) l' d := by
  rw [known, known, known, toward_append, told_append]
  cases told (ToraAgent.toward d l') <;> rfl

namespace ToraNetwork

/-- What `j` will have recorded of the height of `i` when everything from `i` is delivered. -/
def heard (net : ToraNetwork) (i j d : ℤ) : Option Height :=
  known ((net.node j).record d i) (net.link i j) d

/-- `j` will have no height of `i`. -/
def Unheard (net : ToraNetwork) (i j d : ℤ) : Prop := (net.heard i j d).all Height.isNull = true

/-- The conditions on an event at the time `now`: a link comes up at a node whose height is not recorded at
the other end; no other node has the height that a node defines when it loses a link; and a route that
is erased without a CLR to the neighbours is one that they do not know. -/
def Meets (nodes : Finset ℤ) (net : ToraNetwork) (now : ℚ) : ToraEvent → Prop
  | .linkUp i j => i ≠ j → j ∉ (net.node i).biLinks → ∀ d, d ≠ i → net.Unheard i j d
  | .linkDown i j => j ∈ (net.node i).biLinks → ∀ td ∈ (net.node i).dstlist, td.index ≠ i →
      td.raises j = true → ∀ k ∈ nodes, k ≠ i →
        (net.node k).height td.index ≠ ⟨now, td.index, 0, 0, td.index⟩
  | .deliver i j => ∀ msg ∈ (net.link i j).head?, msg.dst ≠ j →
      ((net.node j).dst now msg.dst).Unreported msg →
        ∀ k ∈ (net.node j).biLinks, net.Unheard j k msg.dst
  | _ => True

/-- The destinations that `j` has a record of, or a message of `i`. -/
def dests (net : ToraNetwork) (i j : ℤ) : List ℤ :=
  (net.node j).dstlist.map ToraDest.index ++ (net.link i j).map ToraMsg.dst

theorem unheard_of_not_mem {net : ToraNetwork} {i j d : ℤ} (hd : d ∉ net.dests i j) :
    net.Unheard i j d := by
  rw [dests, List.mem_append, not_or] at hd
  have hfind : (net.node j).dstFind d = none :=
    findKey_eq_none.2 fun td htd heq => hd.1 (heq ▸ List.mem_map_of_mem htd)
  have hlink : ToraAgent.toward d (net.link i j) = [] :=
    ToraAgent.toward_eq_nil fun m hm heq => hd.2 (heq ▸ List.mem_map_of_mem hm)
  rw [Unheard, heard, known, ToraAgent.record, hfind, hlink]
  rfl

instance (net : ToraNetwork) (i j d : ℤ) : Decidable (net.Unheard i j d) :=
  inferInstanceAs (Decidable (_ = true))

instance (nodes : Finset ℤ) (net : ToraNetwork) (now : ℚ) (e : ToraEvent) :
    Decidable (net.Meets nodes now e) :=
  match e with
  | .linkUp i j => decidable_of_iff (i ≠ j → j ∉ (net.node i).biLinks → ∀ d ∈ net.dests i j, d ≠ i →
      net.Unheard i j d) ⟨fun h hij hj d hd => by
        by_cases hmem : d ∈ net.dests i j
        · exact h hij hj d hmem hd
        · exact unheard_of_not_mem hmem, fun h hij hj d _ hd => h hij hj d hd⟩
  | .linkDown i j => inferInstanceAs (Decidable (j ∈ (net.node i).biLinks → ∀ td ∈ (net.node i).dstlist,
      td.index ≠ i → td.raises j = true → ∀ k ∈ nodes, k ≠ i →
        (net.node k).height td.index ≠ ⟨now, td.index, 0, 0, td.index⟩))
  | .deliver i j => inferInstanceAs (Decidable (∀ msg ∈ (net.link i j).head?, msg.dst ≠ j →
      ((net.node j).dst now msg.dst).Unreported msg →
        ∀ k ∈ (net.node j).biLinks, net.Unheard j k msg.dst))
  | .resolve _ _ => isTrue trivial
  | .lose _ _ => isTrue trivial

structure Inv (nodes : Finset ℤ) (net : ToraNetwork) : Prop where
  ok : ∀ i, (net.node i).Ok
  ipaddr : ∀ i, (net.node i).ipaddr = i
  idle : ∀ i ∉ nodes, net.node i = .init i
  distinct : ∀ d i k, i ≠ k → (net.node i).height d = (net.node k).height d →
    ((net.node i).height d).isNull = true
  heard : ∀ i j d k, i ≠ d → j ∈ (net.node i).biLinks → net.heard i j d = some k →
    k.isNull = true ∨ k = (net.node i).height d

variable {nodes : Finset ℤ} {net net₁ : ToraNetwork} {x : ℤ} {r : ToraAgent × List ToraMsg}

/-- An event at the node `x`, where the messages `popped i` from `i` have been received. -/
theorem Inv.act (h : Inv nodes net) (hx : x ∈ nodes) (popped : ℤ → List ToraMsg)
    (hnode : net₁.node = net.node) (hlink : ∀ i, net.link i x = popped i ++ net₁.link i x)
    (hlink' : ∀ i j, j ≠ x → net₁.link i j = net.link i j)
    (hr : ToraAgent.Outcome (net.node x) (fun d i => known ((net.node x).record d i) (popped i) d) r)
    (htold : ∀ d, d ≠ x → told (ToraAgent.toward d r.2) = some (some (r.1.height d)) ∨
      told (ToraAgent.toward d r.2) = some none ∨
      told (ToraAgent.toward d r.2) = none ∧ ∀ j ∈ r.1.biLinks,
        net.Unheard x j d ∨ j ∈ (net.node x).biLinks ∧ r.1.height d = (net.node x).height d)
    (hdistinct : ∀ d k, k ≠ x → r.1.height d = (net.node k).height d → (r.1.height d).isNull = true) :
    Inv nodes (net₁.act x r) := by
  have hself : (net₁.act x r).node x = r.1 := Function.update_self ..
  have hother : ∀ i, i ≠ x → (net₁.act x r).node i = net.node i := by
    intro i hi
    rw [← hnode]
    exact Function.update_of_ne hi ..
  refine ⟨fun i => ?_, fun i => ?_, fun i hi => ?_, fun d i k hik heq => ?_, fun i j d k hid hj hk => ?_⟩
  · by_cases hi : i = x
    · rw [hi, hself]
      exact hr.ok
    · rw [hother i hi]
      exact h.ok i
  · by_cases hi : i = x
    · rw [hi, hself, hr.ipaddr]
      exact h.ipaddr x
    · rw [hother i hi]
      exact h.ipaddr i
  · have hne : i ≠ x := fun heq => hi (heq ▸ hx)
    rw [hother i hne]
    exact h.idle i hi
  · by_cases hi : i = x
    · subst hi
      rw [hself] at heq ⊢
      rw [hother k (Ne.symm hik)] at heq
      exact hdistinct d k (Ne.symm hik) heq
    · rw [hother i hi] at heq ⊢
      by_cases hkx : k = x
      · subst hkx
        rw [hself] at heq
        rw [heq]
        exact hdistinct d i hi heq.symm
      · rw [hother k hkx] at heq
        exact h.distinct d i k hik heq
  · by_cases hi : i = x
    · subst hi
      rw [hself] at hj
      have hjx : j ≠ i := fun heq => hr.ok.notSelf (by rw [hr.ipaddr, h.ipaddr, ← heq]; exact hj)
      have hsent : (net₁.act i r).heard i j d = known (net.heard i j d) r.2 d := by
        have hrow : (net₁.act i r).link i j = net₁.link i j ++ r.2 := by
          rw [ToraNetwork.act]
          dsimp only
          rw [Function.update_self, if_pos hj]
        rw [ToraNetwork.heard, hother j hjx, hrow, hlink' i j hjx, known_append]
        rfl
      rw [hself]
      rw [hsent, known] at hk
      rcases htold d hid.symm with hnew | herased | ⟨hnone, hold⟩
      · rw [hnew] at hk
        exact Or.inr (Option.some.inj hk).symm
      · rw [herased] at hk
        cases hk
      · rw [hnone] at hk
        rcases hold j hj with hun | ⟨hold, heq⟩
        · rw [Unheard] at hun
          rw [Option.getD_none] at hk
          rw [hk] at hun
          exact Or.inl hun
        · rw [heq]
          exact h.heard i j d k hid hold hk
    · rw [hother i hi] at hj ⊢
      have hrow : ∀ j, (net₁.act x r).link i j = net₁.link i j := by
        intro j
        rw [ToraNetwork.act]
        dsimp only
        rw [Function.update_of_ne hi]
      by_cases hjx : j = x
      · subst hjx
        rw [ToraNetwork.heard, hself, hrow, known] at hk
        have hold : net.heard i j d =
            known (known ((net.node j).record d i) (popped i) d) (net₁.link i j) d := by
          rw [ToraNetwork.heard, hlink i, known_append]
        rw [known] at hold
        cases hrest : told (ToraAgent.toward d (net₁.link i j)) with
        | some last =>
          rw [hrest, Option.getD_some] at hk hold
          exact h.heard i j d k hid hj (hold.trans hk)
        | none =>
          rw [hrest, Option.getD_none] at hk hold
          rcases hr.record d i k hid hk with hnull | hknown
          · exact Or.inl hnull
          · exact h.heard i j d k hid hj (hold.trans hknown)
      · rw [ToraNetwork.heard, hother j hjx, hrow, hlink' i j hjx] at hk
        exact h.heard i j d k hid hj hk

theorem setLink_link (net : ToraNetwork) (i j : ℤ) (l : List ToraMsg) (i' j' : ℤ) :
    (net.setLink i j l).link i' j' = if i' = i ∧ j' = j then l else net.link i' j' := by
  rw [setLink]
  dsimp only
  by_cases hi : i' = i
  · subst hi
    rw [Function.update_self, Function.update_apply]
    simp only [true_and]
  · rw [Function.update_of_ne hi, if_neg fun hij => hi hij.1]

theorem Inv.lose (h : Inv nodes net) {i j : ℤ}
    (hdown : ¬(j ∈ (net.node i).biLinks ∧ i ∈ (net.node j).biLinks)) : Inv nodes (net.setLink i j []) := by
  refine ⟨h.ok, h.ipaddr, h.idle, h.distinct, fun i' j' d k hid hj hk => ?_⟩
  by_cases hij : i' = i ∧ j' = j
  · obtain ⟨rfl, rfl⟩ := hij
    -- nothing is recorded of a neighbour whose link is down
    have hnone : (net.node j').record d i' = none := by
      rw [Option.eq_none_iff_forall_ne_some]
      exact fun k hk => hdown ⟨hj, (h.ok j').mem_biLinks_of_record hk⟩
    rw [ToraNetwork.heard, setLink_link, if_pos ⟨rfl, rfl⟩] at hk
    exact absurd (hk.symm.trans hnone) (by simp)
  · rw [ToraNetwork.heard, setLink_link, if_neg hij] at hk
    exact h.heard i' j' d k hid hj hk

theorem inv_start (nodes : Finset ℤ) : Inv nodes start := by
  refine ⟨fun i => ⟨List.nodup_nil, List.not_mem_nil, List.nodup_nil, fun td htd => by cases htd⟩,
    fun i => rfl, fun i _ => rfl, fun d i k _ _ => Height.isNull_new d, fun i j d k _ hj => by cases hj⟩

theorem Inv.isNull_of_id (h : Inv nodes net) {d k : ℤ} (hk : k ≠ x) (hd : d ≠ x)
    (hid : ((net.node k).height d).id = x) : ((net.node k).height d).isNull = true := by
  rw [ToraAgent.height] at hid ⊢
  cases htd : (net.node k).dstFind d with
  | none => exact Height.isNull_new d
  | some td =>
    rw [htd] at hid
    dsimp only at hid ⊢
    obtain ⟨hmem, hindex⟩ := mem_of_findKey htd
    rcases ((h.ok k).dest td hmem).own with hnull | hown | ⟨tau, hlost⟩
    · exact hnull
    · exact absurd ((h.ipaddr k).symm.trans (hown.symm.trans hid)) hk
    · rw [hlost] at hid
      exact absurd (hindex.symm.trans hid) hd

theorem Inv.step (h : Inv nodes net) {now : ℚ} {e : ToraEvent} (hmeets : net.Meets nodes now e)
    (hnodes : ∀ i ∈ e.nodes, i ∈ nodes) {net' : ToraNetwork} (hstep : net.handle now e = some net') :
    Inv nodes net' := by
  have hsame : ∀ x (r : ToraAgent × List ToraMsg), (∀ d, r.1.height d = (net.node x).height d) →
      ∀ d k, k ≠ x → r.1.height d = (net.node k).height d → (r.1.height d).isNull = true := by
    intro x r hheight d k hk heq
    rw [hheight] at heq ⊢
    exact h.distinct d x k hk.symm heq
  cases e with
  | resolve i dst =>
    obtain ⟨r, hr, rfl⟩ := Option.map_eq_some_iff.1 hstep
    obtain ⟨hout, hlinks, hheight⟩ := (h.ok i).rtResolve hr
    exact h.act (hnodes i (by simp [ToraEvent.nodes])) (fun _ => []) rfl (fun _ => rfl) (fun _ _ _ => rfl)
      hout (fun d _ => Or.inr (Or.inr ⟨(hheight d).2, fun j hj => Or.inr ⟨hlinks ▸ hj, (hheight d).1⟩⟩))
      (hsame i r fun d => (hheight d).1)
  | linkUp i j =>
    rw [handle] at hstep
    by_cases hup : i = j ∨ j ∈ (net.node i).biLinks
    · rw [if_pos hup] at hstep
      exact Option.some.inj hstep ▸ h
    · rw [if_neg hup] at hstep
      obtain rfl := Option.some.inj hstep
      rw [not_or] at hup
      have hne : j ≠ (net.node i).ipaddr := by
        rw [h.ipaddr]
        exact Ne.symm hup.1
      obtain ⟨hout, hheight⟩ := (h.ok i).rtNotifyLinkUP now hne hup.2
      refine h.act (hnodes i (by simp [ToraEvent.nodes])) (fun _ => []) rfl (fun _ => rfl)
        (fun _ _ _ => rfl) hout (fun d hd => Or.inr (Or.inr ⟨(hheight d).2, fun j' hj' => ?_⟩))
        (hsame i _ fun d => (hheight d).1)
      rcases List.mem_cons.1 hj' with rfl | hold
      · exact Or.inl (hmeets hup.1 hup.2 d hd)
      · exact Or.inr ⟨hold, (hheight d).1⟩
  | linkDown i j =>
    rw [handle] at hstep
    by_cases hup : j ∈ (net.node i).biLinks
    · rw [if_pos hup] at hstep
      obtain rfl := Option.some.inj hstep
      obtain ⟨hout, hlost⟩ := (h.ok i).rtNotifyLinkDN now j
      refine h.act (hnodes i (by simp [ToraEvent.nodes])) (fun _ => []) rfl (fun _ => rfl)
        (fun _ _ _ => rfl) hout (fun d _ => ?_) fun d k hk heq => ?_
      · rcases (hlost d).1 with ⟨heq, hnone⟩ | hnew | herased
        · exact Or.inr (Or.inr ⟨hnone, fun j' hj' => Or.inr ⟨List.mem_of_mem_erase hj', heq⟩⟩)
        · exact Or.inl hnew
        · exact Or.inr (Or.inl herased)
      · rcases (hlost d).2 with hsame | hnull | ⟨hd, hraised, td, htd, hindex, hraises⟩
        · rw [hsame] at heq ⊢
          exact h.distinct d i k hk.symm heq
        · exact hnull
        · by_cases hmem : k ∈ nodes
          · subst hindex
            rw [h.ipaddr] at hd
            exact absurd (heq.symm.trans hraised) (hmeets hup td htd hd hraises k hmem hk)
          · rw [heq, h.idle k hmem]
            exact Height.isNull_new d
    · rw [if_neg hup] at hstep
      exact Option.some.inj hstep ▸ h
  | deliver i j =>
    rw [handle] at hstep
    cases hl : net.link i j with
    | nil =>
      rw [hl] at hstep
      exact Option.some.inj hstep ▸ h
    | cons msg l =>
      rw [hl] at hstep
      obtain ⟨r, hr, rfl⟩ := Option.map_eq_some_iff.1 hstep
      obtain ⟨hout, hlinks, hown, hreports⟩ := (h.ok j).recvTORA hr
      have hheard : (fun d i' => known ((net.node j).record d i') (if i' = i then [msg] else []) d) =
          fun d i' => if i' = i then known ((net.node j).record d i') [msg] d else (net.node j).record d i' := by
        funext d i'
        split_ifs <;> rfl
      rw [← hheard] at hout
      refine h.act (hnodes j (by simp [ToraEvent.nodes])) (fun i' => if i' = i then [msg] else []) rfl
        (fun i' => ?_) (fun i' j' hj' => ?_) hout (fun d hd => ?_) fun d k hk heq => ?_
      · rw [setLink_link]
        by_cases hi : i' = i
        · rw [if_pos hi, if_pos ⟨hi, rfl⟩, hi, hl]
          rfl
        · rw [if_neg hi, if_neg fun hij => hi hij.1]
          rfl
      · rw [setLink_link, if_neg fun hij => hj' hij.2]
      · rcases hreports d with (⟨heq, hnone⟩ | hnew | herased) | ⟨hquiet, hdst, -, hun⟩
        · exact Or.inr (Or.inr ⟨hnone, fun j' hj' => Or.inr ⟨hlinks ▸ hj', heq⟩⟩)
        · exact Or.inl hnew
        · exact Or.inr (Or.inl herased)
        · subst hdst
          refine Or.inr (Or.inr ⟨by rw [hquiet]; rfl, fun j' hj' => Or.inl ?_⟩)
          exact hmeets msg (by rw [hl]; rfl) hd hun j' (hlinks ▸ hj')
      · rcases hown d with hsame | hnull | ⟨hid, hd⟩
        · rw [hsame] at heq ⊢
          exact h.distinct d j k hk.symm heq
        · exact hnull
        · rw [h.ipaddr] at hid hd
          rw [heq] at hid ⊢
          exact h.isNull_of_id hk hd hid
  | lose i j =>
    rw [handle] at hstep
    by_cases hup : j ∈ (net.node i).biLinks ∧ i ∈ (net.node j).biLinks
    · rw [if_pos hup] at hstep
      exact Option.some.inj hstep ▸ h
    · rw [if_neg hup] at hstep
      exact Option.some.inj hstep ▸ h.lose hup

/-- No message is in flight or queued. -/
def AtRest (nodes : Finset ℤ) (net : ToraNetwork) : Prop := ∀ i ∈ nodes, ∀ j ∈ nodes, net.link i j = []

/-- A node whose height is recorded has a link to those who have recorded it: no notification that a link
is down has come to one end only. -/
def BothEnds (nodes : Finset ℤ) (net : ToraNetwork) : Prop :=
  ∀ j ∈ nodes, ∀ td ∈ (net.node j).dstlist, ∀ tn ∈ td.nblist, tn.index ≠ td.index →
    tn.height.isNull = false → j ∈ (net.node tn.index).biLinks

instance (nodes : Finset ℤ) (net : ToraNetwork) : Decidable (net.AtRest nodes) :=
  inferInstanceAs (Decidable (∀ i ∈ nodes, ∀ j ∈ nodes, net.link i j = []))

instance (nodes : Finset ℤ) (net : ToraNetwork) : Decidable (net.BothEnds nodes) :=
  inferInstanceAs (Decidable (∀ j ∈ nodes, ∀ td ∈ (net.node j).dstlist, ∀ tn ∈ td.nblist,
    tn.index ≠ td.index → tn.height.isNull = false → j ∈ (net.node tn.index).biLinks))

/-- The destination is below all nodes, and those without a height are above all. -/
def level (net : ToraNetwork) (d i : ℤ) : ℕ :=
  if i = d then 0 else if ((net.node i).height d).isNull then 2 else 1

/-- What falls along the routes. -/
def rank (net : ToraNetwork) (d i : ℤ) : ℕ ×ₗ ℚ ×ₗ ℤ ×ₗ ℤ ×ₗ ℤ ×ₗ ℤ :=
  toLex (net.level d i, ((net.node i).height d).key)

theorem nbFindNextHop_spec {td : ToraDest} {tn : ToraNeighbor} (h : td.nbFindNextHop = some tn) :
    tn ∈ td.nblist ∧ tn.height.isNull = false ∧ tn.lnkStat = .dn := by
  obtain ⟨hmem, hok⟩ := ToraDest.nbMin_eq_some h
  rw [Bool.and_eq_true_iff, Bool.not_eq_true', decide_eq_true_iff] at hok
  exact ⟨hmem, hok⟩

theorem Inv.rank_lt (h : Inv nodes net) (hrest : net.AtRest nodes) (hends : net.BothEnds nodes) {d i j : ℤ}
    (hnext : net.NextHop d i j) : net.rank d j < net.rank d i := by
  obtain ⟨td, tn, htd, htn, rfl⟩ := hnext
  obtain ⟨hmem, hindex⟩ := mem_of_findKey htd
  obtain ⟨htn, hnull, hdn⟩ := nbFindNextHop_spec htn
  have hok := (h.ok i).dest td hmem
  have hheight : (net.node i).height d = td.height := by
    rw [ToraAgent.height, htd]
  have hid : i ≠ d := by
    intro hid
    have hself : td.index = (net.node i).ipaddr := by rw [hindex, h.ipaddr, hid]
    rw [((hok.self hself).neighbors tn htn).1] at hnull
    cases hnull
  rw [rank, rank, Prod.Lex.toLex_lt_toLex]
  by_cases hj : tn.index = d
  · left
    rw [level, if_pos hj, level, if_neg hid]
    split_ifs
    · exact (by decide : 0 < 2)
    · exact (by decide : 0 < 1)
  · have hne : tn.index ≠ i := by
      intro heq
      refine (h.ok i).notSelf ((hok.nbs _).1 ?_)
      rw [h.ipaddr, ← heq]
      exact List.mem_map_of_mem htn
    have hnode : ∀ k, (net.node k).biLinks ≠ [] → k ∈ nodes := by
      intro k hk
      by_contra hmem
      exact hk (by rw [h.idle k hmem]; rfl)
    have hmine : i ∈ nodes := hnode i (List.ne_nil_of_mem ((hok.nbs _).1 (List.mem_map_of_mem htn)))
    have hlink := hends i hmine td hmem tn htn (hindex ▸ hj) hnull
    -- the height that is recorded is the neighbour's
    have hrec : net.heard tn.index i d = some tn.height := by
      have hfind : (net.node i).record d tn.index = some tn.height := by
        rw [ToraAgent.record, htd, Option.bind_some, ToraDest.record, ToraDest.nbFind,
          findKey_of_mem hok.nodup htn]
        rfl
      rw [ToraNetwork.heard, hrest tn.index (hnode _ (List.ne_nil_of_mem hlink)) i hmine, hfind]
      rfl
    have heq : tn.height = (net.node tn.index).height d :=
      (h.heard tn.index i d tn.height hj hlink hrec).resolve_left (by simp [hnull])
    have hdiff : tn.height ≠ td.height := by
      intro hsame
      rw [heq, ← hheight] at hsame
      have hboth := h.distinct d tn.index i hne hsame
      rw [← heq, hnull] at hboth
      cases hboth
    have hlevel : net.level d tn.index = 1 := by
      rw [level, if_neg hj, ← heq, hnull, if_neg (by decide)]
    rw [hlevel, level, if_neg hid, ← heq, hheight]
    rcases hok.aligned tn htn (hindex ▸ hj) hdn with hown | hle
    · rw [if_pos hown]
      exact Or.inl (by decide : 1 < 2)
    · split_ifs
      · exact Or.inl (by decide : 1 < 2)
      · exact Or.inr ⟨rfl, lt_of_le_of_ne hle fun hkey => hdiff (Height.key_injective hkey)⟩

theorem step_ne_none (nodes : Finset ℤ) (net : ToraNetwork) (e : ℚ × ToraEvent) :
    (toraNetwork nodes).step net e ≠ none := by
  have hdst : ∀ (a : ToraAgent) (d : ℤ) (f : ToraDest → Option (ToraDest × List ToraMsg)),
      (∀ td, f td ≠ none) → a.atDst e.1 d f ≠ none := by
    intro a d f hf
    rw [ToraAgent.atDst]
    split
    · simpa using hf _
    · simpa using hf _
  have hhandle : net.handle e.1 e.2 ≠ none := by
    cases e.2 with
    | resolve i dst =>
      rw [handle, ToraAgent.rtResolve]
      simpa using hdst _ _ _ fun td => Option.some_ne_none _
    | linkUp i j =>
      rw [handle]
      split
      · exact Option.some_ne_none _
      · exact Option.some_ne_none _
    | linkDown i j =>
      rw [handle]
      split
      · exact Option.some_ne_none _
      · exact Option.some_ne_none _
    | deliver i j =>
      rw [handle]
      split
      · exact Option.some_ne_none _
      · rw [ToraAgent.recvTORA]
        split
        · exact Option.some_ne_none _
        · simpa using hdst _ _ _ fun td => ToraDest.recv_ne_none _ _ _ td _
    | lose i j =>
      rw [handle]
      split
      · exact Option.some_ne_none _
      · exact Option.some_ne_none _
  rw [toraNetwork]
  dsimp only
  split
  · simpa using hhandle
  · exact Option.some_ne_none _

/-- The routes have no cycle, and no two nodes have one height. -/
theorem acyclic_of_meets (nodes : Finset ℤ) {es : List (ℚ × ToraEvent)} {us : List Unit}
    (hok : (toraNetwork nodes).RunsWith (fun net e => net.Meets nodes e.1 e.2) start es)
    (hrun : (toraNetwork nodes).run start es = some (net, us)) (hrest : net.AtRest nodes)
    (hends : net.BothEnds nodes) (d : ℤ) :
    (∀ i, ¬Relation.TransGen (net.NextHop d) i i) ∧ ∀ i k, i ≠ k →
      (net.node i).height d = (net.node k).height d →
        ((net.node i).height d).isNull = true ∧ ((net.node k).height d).isNull = true := by
  have hinv : Inv nodes net := hok.keeps (fun net e net' u h hmeets hstep => by
    rw [toraNetwork] at hstep
    dsimp only at hstep
    split_ifs at hstep with hnodes
    · obtain ⟨net'', hhandle, heq⟩ := Option.map_eq_some_iff.1 hstep
      cases heq
      exact h.step hmeets hnodes hhandle
    · cases hstep
      exact h) hrun (inv_start nodes)
  have hdescends : ∀ i k, Relation.TransGen (net.NextHop d) i k → net.rank d k < net.rank d i := by
    intro i k hpath
    induction hpath with
    | single hnext => exact hinv.rank_lt hrest hends hnext
    | tail _ hnext ih => exact (hinv.rank_lt hrest hends hnext).trans ih
  refine ⟨fun i hcycle => lt_irrefl _ (hdescends i i hcycle), fun i k hik heq => ?_⟩
  have hnull := hinv.distinct d i k hik heq
  exact ⟨hnull, heq ▸ hnull⟩

/-- What a neighbour will know of a height when all in flight is delivered is the height or none, and no two
nodes have one height. -/
theorem heard_of_meets (nodes : Finset ℤ) {es : List (ℚ × ToraEvent)} {us : List Unit}
    (hok : (toraNetwork nodes).RunsWith (fun net e => net.Meets nodes e.1 e.2) start es)
    (hrun : (toraNetwork nodes).run start es = some (net, us)) (d : ℤ) :
    (∀ i j k, i ≠ d → j ∈ (net.node i).biLinks → net.heard i j d = some k →
      k.isNull = true ∨ k = (net.node i).height d) ∧
    ∀ i k, i ≠ k → (net.node i).height d = (net.node k).height d →
      ((net.node i).height d).isNull = true :=
  have hinv : Inv nodes net := hok.keeps (fun net e net' u h hmeets hstep => by
    simp only [toraNetwork] at hstep
    split_ifs at hstep with hnodes
    · obtain ⟨_, hhandle, heq⟩ := Option.map_eq_some_iff.1 hstep
      cases heq
      exact h.step hmeets hnodes hhandle
    · cases hstep
      exact h) hrun (inv_start nodes)
  ⟨fun i j k => hinv.heard i j d k, hinv.distinct d⟩

/-- A link comes up, or goes down, at both of its ends. -/
def bothEnds (e : ℤ → ℤ → ToraEvent) (l : List (ℤ × ℤ)) : List ToraEvent :=
  l.flatMap fun p => [e p.1 p.2, e p.2 p.1]

def atTime (now : ℚ) (l : List ToraEvent) : List (ℚ × ToraEvent) := l.map (Prod.mk now)

/-- The nodes 1, 2 and 3 have links to the destination 0 and to node 4, which needs a route. -/
def routed : List (ℚ × ToraEvent) :=
  atTime 1 (bothEnds .linkUp [(1, 0), (2, 0), (3, 0), (4, 1), (4, 2), (4, 3)]) ++
    atTime 2 [.resolve 4 0, .deliver 4 1, .deliver 4 2, .deliver 4 3, .deliver 1 4, .deliver 2 4,
      .deliver 3 4, .deliver 4 1, .deliver 4 2, .deliver 4 3, .deliver 1 0, .deliver 2 0, .deliver 3 0]

theorem heard_of_meets_routed : ∃ net us,
    (toraNetwork {0, 1, 2, 3, 4}).run start routed = some (net, us) ∧
      ∀ j k, j ∈ (net.node 4).biLinks → net.heard 4 j 0 = some k →
        k.isNull = true ∨ k = (net.node 4).height 0 := by
  obtain ⟨⟨net, us⟩, hrun⟩ := Option.isSome_iff_exists.1 (by decide +kernel :
    ((toraNetwork {0, 1, 2, 3, 4}).run start routed).isSome)
  exact ⟨net, us, hrun, fun j k => (heard_of_meets _ (by decide +kernel) hrun 0).1 4 j k (by decide)⟩

/-- The nodes 1 and 2 lose their links to the destination, at these times. -/
def lostLinks (t₁ t₂ : ℚ) : List (ℚ × ToraEvent) :=
  atTime t₁ (bothEnds .linkDown [(1, 0)]) ++ atTime t₂ (bothEnds .linkDown [(2, 0)]) ++
    atTime t₂ [.deliver 1 4, .deliver 2 4]

/-- The links are lost one after the other. -/
theorem acyclic_of_meets_lostLinks : ∃ net us,
    (toraNetwork {0, 1, 2, 3, 4}).run start (routed ++ lostLinks 5 7) = some (net, us) ∧
      (∀ i, ¬Relation.TransGen (net.NextHop 0) i i) ∧ ∀ i k, i ≠ k →
        (net.node i).height 0 = (net.node k).height 0 →
          ((net.node i).height 0).isNull = true ∧ ((net.node k).height 0).isNull = true := by
  obtain ⟨⟨net, us⟩, hrun⟩ := Option.isSome_iff_exists.1 (by decide +kernel :
    ((toraNetwork {0, 1, 2, 3, 4}).run start (routed ++ lostLinks 5 7)).isSome)
  have hends : (((toraNetwork {0, 1, 2, 3, 4}).run start (routed ++ lostLinks 5 7)).map fun r =>
      decide (r.1.AtRest {0, 1, 2, 3, 4} ∧ r.1.BothEnds {0, 1, 2, 3, 4})) = some true := by decide +kernel
  rw [hrun] at hends
  obtain ⟨hrest, hboth⟩ := of_decide_eq_true (Option.some.inj hends)
  exact ⟨net, us, hrun, acyclic_of_meets {0, 1, 2, 3, 4} (by decide +kernel) hrun hrest hboth 0⟩

/-- The links are lost at the same time, and the nodes 1 and 2 get the same height. -/
theorem not_distinct_lostLinks : ¬∀ (nodes : Finset ℤ) (es : List (ℚ × ToraEvent)) (net : ToraNetwork)
    (us : List Unit), (toraNetwork nodes).run start es = some (net, us) → net.AtRest nodes →
    net.BothEnds nodes → ∀ d, (∀ i, ¬Relation.TransGen (net.NextHop d) i i) ∧ ∀ i k, i ≠ k →
      (net.node i).height d = (net.node k).height d →
        ((net.node i).height d).isNull = true ∧ ((net.node k).height d).isNull = true := by
  intro h
  obtain ⟨⟨net, us⟩, hrun⟩ := Option.isSome_iff_exists.1 (by decide +kernel :
    ((toraNetwork {0, 1, 2, 3, 4}).run start (routed ++ lostLinks 5 5)).isSome)
  have hends : (((toraNetwork {0, 1, 2, 3, 4}).run start (routed ++ lostLinks 5 5)).map fun r =>
      decide (r.1.AtRest {0, 1, 2, 3, 4} ∧ r.1.BothEnds {0, 1, 2, 3, 4} ∧
        (r.1.node 1).height 0 = (r.1.node 2).height 0 ∧ ((r.1.node 1).height 0).isNull = false)) =
          some true := by decide +kernel
  rw [hrun] at hends
  obtain ⟨hrest, hboth, hsame, hnull⟩ := of_decide_eq_true (Option.some.inj hends)
  have hboth := ((h _ _ net us hrun hrest hboth 0).2 1 2 (by decide) hsame).1
  rw [hnull] at hboth
  cases hboth

end ToraNetwork

end Ns2.Tora
