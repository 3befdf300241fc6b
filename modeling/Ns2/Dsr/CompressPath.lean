import Ns2.Dsr.PathArray

/-! `compressPath` takes the loops out of a path, and no link that was not there comes in. -/

namespace Ns2

open Option

namespace Dsr

open List

/-- `l'` is left of `l` when loops are taken out. -/
structure Shortens (l l' : List ID) : Prop where
  sublist : l'.Sublist l
  head : (l'.map ID.key).head? = (l.map ID.key).head?
  last : (l'.map ID.key).getLast? = (l.map ID.key).getLast?
  links : ∀ e ∈ links (l'.map ID.key), e ∈ Dsr.links (l.map ID.key)

/-- The first `fp` identifiers do not come again. -/
def Settled (fp : ℕ) (ks : List Key) : Prop :=
  ∀ i < fp, ∀ j, i < j → j < ks.length → ks[i]? ≠ ks[j]?

section Cut

variable {l l' l'' : List ID} {ks : List Key} {fp bp i : ℕ}

theorem Shortens.refl (l : List ID) : Shortens l l := ⟨Sublist.refl l, rfl, rfl, fun _ h => h⟩

theorem Shortens.trans (h : Shortens l l') (h' : Shortens l' l'') : Shortens l l'' :=
  ⟨h'.sublist.trans h.sublist, h'.head.trans h.head, h'.last.trans h.last,
    fun e he => h.links e (h'.links e he)⟩

theorem getElem?_cut_of_le (hfb : fp < bp) (hbp : bp < ks.length) (heq : ks[fp]? = ks[bp]?)
    (hi : i ≤ fp) : (ks.take fp ++ ks.drop bp)[i]? = ks[i]? := by
  have htake : (ks.take fp).length = fp := by
    rw [length_take]
    omega
  obtain hlt | rfl := hi.lt_or_eq
  · rw [getElem?_append_left (by omega), getElem?_take, if_pos hlt]
  · rw [getElem?_append_right (by omega), htake, Nat.sub_self, getElem?_drop, heq]
    rfl

theorem getElem?_cut_of_ge (hfb : fp < bp) (hbp : bp < ks.length) (hi : fp ≤ i) :
    (ks.take fp ++ ks.drop bp)[i]? = ks[i - fp + bp]? := by
  have htake : (ks.take fp).length = fp := by
    rw [length_take]
    omega
  rw [getElem?_append_right (by omega), htake, getElem?_drop, Nat.add_comm]

theorem links_cut (hfb : fp < bp) (hbp : bp < ks.length) (heq : ks[fp]? = ks[bp]?) {e : Key × Key}
    (he : e ∈ links (ks.take fp ++ ks.drop bp)) : e ∈ links ks := by
  obtain ⟨i, ha, hb⟩ := mem_links.1 he
  obtain hi | hi := Nat.lt_or_ge i fp
  · rw [getElem?_cut_of_le hfb hbp heq hi.le] at ha
    rw [getElem?_cut_of_le hfb hbp heq hi] at hb
    exact mem_links.2 ⟨i, ha, hb⟩
  · rw [getElem?_cut_of_ge hfb hbp hi] at ha
    rw [getElem?_cut_of_ge hfb hbp (by omega), show i + 1 - fp + bp = i - fp + bp + 1 by omega] at hb
    exact mem_links.2 ⟨i - fp + bp, ha, hb⟩

theorem shortens_cut (hfb : fp < bp) (hbp : bp < l.length)
    (heq : (l.map ID.key)[fp]? = (l.map ID.key)[bp]?) :
    Shortens l (l.take fp ++ l.drop bp) := by
  have hbp' : bp < (l.map ID.key).length := by rwa [length_map]
  have hmap : (l.take fp ++ l.drop bp).map ID.key =
      (l.map ID.key).take fp ++ (l.map ID.key).drop bp := by
    rw [map_append, map_take, map_drop]
  refine ⟨?_, ?_, ?_, fun e he => ?_⟩
  · have hsub : (l.take fp ++ l.drop bp).Sublist (l.take fp ++ l.drop fp) :=
      (Sublist.refl _).append (drop_sublist_drop_left l hfb.le)
    rwa [take_append_drop] at hsub
  · rw [hmap, head?_eq_getElem?, head?_eq_getElem?,
      getElem?_cut_of_le hfb hbp' heq (Nat.zero_le fp)]
  · have hne : (l.map ID.key).drop bp ≠ [] := by
      rw [Ne, drop_eq_nil_iff]
      omega
    rw [hmap, getLast?_append_of_ne_nil _ hne, getLast?_drop, if_neg (by omega)]
  · rw [hmap] at he
    exact links_cut hfb hbp' heq he

theorem Settled.cut (h : Settled fp ks) (hfb : fp < bp) (hbp : bp < ks.length)
    (heq : ks[fp]? = ks[bp]?) (hlast : ∀ j, bp < j → j < ks.length → ks[j]? ≠ ks[fp]?) :
    Settled (fp + 1) (ks.take fp ++ ks.drop bp) := by
  intro i hi j hij hj
  rw [length_append, length_take, length_drop] at hj
  rw [getElem?_cut_of_le hfb hbp heq (by omega)]
  obtain hlt | hge := Nat.lt_or_ge j fp
  · rw [getElem?_cut_of_le hfb hbp heq hlt.le]
    exact h i (by omega) j hij (by omega)
  · rw [getElem?_cut_of_ge hfb hbp hge]
    obtain hif | rfl := Nat.lt_or_eq_of_le (Nat.lt_succ_iff.1 hi)
    · exact h i hif _ (by omega) (by omega)
    · exact (hlast _ (by omega) (by omega)).symm

theorem Settled.succ (h : Settled fp ks) (hlast : ∀ j, fp < j → j < ks.length → ks[j]? ≠ ks[fp]?) :
    Settled (fp + 1) ks := by
  intro i hi j hij hj
  obtain hif | rfl := Nat.lt_or_eq_of_le (Nat.lt_succ_iff.1 hi)
  · exact h i hif j hij hj
  · exact (hlast j hij hj).symm

end Cut

namespace PathArray

variable {p : PathArray} {fp n fuel : ℕ}

/-- The identifiers, as they are compared. -/
def keys (p : PathArray) : List Key := p.nodes.map ID.key

theorem length_keys (h : p.len ≤ maxSrLen) : p.keys.length = p.len := by
  rw [keys, length_map, length_nodes h]

theorem getElem?_keys {i : ℕ} (h : i < p.len) : p.keys[i]? = (p.read i).map ID.key := by
  rw [keys, getElem?_map, getElem?_nodes, if_pos h]

theorem exists_twin (fp n : ℕ) (hlen : p.len ≤ maxSrLen) (h : fp + n < p.len) :
    ∃ r, p.twin fp n = some r ∧
      (∀ bp, r = some bp → fp < bp ∧ bp ≤ fp + n ∧ p.keys[fp]? = p.keys[bp]?) ∧
      ∀ j, r.getD fp < j → j ≤ fp + n → p.keys[j]? ≠ p.keys[fp]? := by
  induction n with
  | zero =>
    refine ⟨none, rfl, fun bp hbp => absurd hbp (by simp), fun j hj hj' => ?_⟩
    rw [getD_none] at hj
    omega
  | succ n ih =>
    obtain ⟨a, ha⟩ := p.read_eq_some (i := fp) (by omega)
    obtain ⟨b, hb⟩ := p.read_eq_some (i := fp + n + 1) (by omega)
    have hfp : p.keys[fp]? = some a.key := by rw [getElem?_keys (by omega), ha]; rfl
    have hbp : p.keys[fp + n + 1]? = some b.key := by rw [getElem?_keys (by omega), hb]; rfl
    rw [twin, ha, hb]
    simp only [bind_eq_bind, bind_some]
    split_ifs with heq
    · rw [ID.eq_iff] at heq
      refine ⟨_, rfl, fun bp hr => ?_, fun j hj hj' => ?_⟩
      · obtain rfl := Option.some.inj hr
        exact ⟨by omega, by omega, by rw [hfp, hbp, heq]⟩
      · rw [getD_some] at hj
        omega
    · rw [ID.eq_iff] at heq
      obtain ⟨r, hr, hsome, hlast⟩ := ih (by omega)
      refine ⟨r, hr, fun bp hbp' => ?_, fun j hj hj' => ?_⟩
      · obtain ⟨hlt, hle, hkey⟩ := hsome bp hbp'
        exact ⟨hlt, by omega, hkey⟩
      · obtain hj'' | rfl := Nat.lt_or_eq_of_le hj'
        · exact hlast j hj (by omega)
        · rw [← Nat.add_assoc, hfp, hbp]
          exact fun hkey => heq (Option.some.inj hkey).symm

theorem nodup_of_settled (hlen : p.len ≤ maxSrLen) (hle : p.len ≤ fp) (hs : Settled fp p.keys) :
    p.keys.Nodup := by
  rw [nodup_iff_getElem?_ne_getElem?]
  intro i j hij hj
  have hj' := length_keys hlen ▸ hj
  exact hs i (by omega) j hij hj

theorem exists_compressFrom (fuel fp : ℕ) (hfuel : p.len - fp ≤ fuel) (hlen : p.len ≤ maxSrLen)
    (hs : Settled fp p.keys) : ∃ q, p.compressFrom fuel fp = some q ∧ q.len ≤ p.len ∧
      q.curIndex = p.curIndex ∧ Shortens p.nodes q.nodes ∧ q.keys.Nodup := by
  induction fuel generalizing fp p with
  | zero => exact ⟨p, rfl, le_rfl, rfl, Shortens.refl _, nodup_of_settled hlen (by omega) hs⟩
  | succ fuel ih =>
    rw [compressFrom]
    split_ifs with hlt
    · obtain ⟨r, hr, hsome, hlast⟩ := p.exists_twin fp (p.len - 1 - fp) hlen (by omega)
      have hlast' : ∀ j, r.getD fp < j → j < p.keys.length → p.keys[j]? ≠ p.keys[fp]? := by
        intro j hj hj'
        rw [length_keys hlen] at hj'
        exact hlast j hj (by omega)
      rw [hr]
      cases r with
      | none => exact ih (fp + 1) (by omega) hlen (hs.succ hlast')
      | some bp =>
        obtain ⟨hfb, hbp, hkey⟩ := hsome bp rfl
        obtain ⟨q, hq, hqlen, hqnodes, hqcur, -⟩ := p.exists_closeUp hfb.le (by omega) hlen
        have hcut : q.keys = p.keys.take fp ++ p.keys.drop bp := by
          rw [keys, hqnodes, map_append, map_take, map_drop]
          rfl
        have hs' : Settled (fp + 1) q.keys := by
          rw [hcut]
          exact hs.cut hfb (by rw [length_keys hlen]; omega) hkey hlast'
        obtain ⟨q', hq', hlen', hcur', hshort, hnodup⟩ := ih (p := q) (fp + 1) (by omega) (by omega) hs'
        refine ⟨q', ?_, by omega, hcur'.trans hqcur, ?_, hnodup⟩
        · simp only [bind_eq_bind, bind_some, hq, hq']
        · rw [hqnodes] at hshort
          exact (shortens_cut hfb (by rw [length_nodes hlen]; omega) hkey).trans hshort
    · exact ⟨p, rfl, le_rfl, rfl, Shortens.refl _, nodup_of_settled hlen (by omega) hs⟩

theorem compressPath_shortens (p : PathArray) (hlen : p.len ≤ maxSrLen) :
    ∃ q, p.compressPath = some q ∧ q.keys.Nodup ∧ q.nodes.Sublist p.nodes ∧
      q.keys.head? = p.keys.head? ∧ q.keys.getLast? = p.keys.getLast? ∧
      ∀ l ∈ links q.keys, l ∈ links p.keys := by
  obtain ⟨q, hq, -, -, hshort, hnodup⟩ := p.exists_compressFrom p.len 0 (by omega)
    hlen fun i hi => absurd hi (Nat.not_lt_zero i)
  exact ⟨q, hq, hnodup, hshort.sublist, hshort.head, hshort.last, hshort.links⟩

def sampleRoute : List ID := [1, 2, 3, 2, 4].map fun a => .ofAddr a .ip

theorem compressPath_shortens_sample : ∃ p q, ofRoute sampleRoute = some p ∧
    p.compressPath = some q ∧ q.keys = [(.ip, 1), (.ip, 2), (.ip, 4)] ∧ q.keys.Nodup := by
  obtain ⟨p, hp, hlen, hq⟩ : ∃ p, ofRoute sampleRoute = some p ∧ p.len ≤ maxSrLen ∧
    (p.compressPath.map keys) = some [(.ip, 1), (.ip, 2), (.ip, 4)] := ⟨_, rfl, by decide, by decide⟩
  obtain ⟨q, hq', hnodup, -⟩ := compressPath_shortens p hlen
  rw [hq'] at hq
  exact ⟨p, q, hp, hq', Option.some.inj hq, hnodup⟩

end PathArray

end Dsr

end Ns2
