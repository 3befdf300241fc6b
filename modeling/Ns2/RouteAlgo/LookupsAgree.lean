import Mathlib.Data.List.GetD
import Mathlib.Data.List.Nodup
import Ns2.Lib.Machine
import Ns2.RouteAlgo.Lookups

/-! Which representations agree with the table of next hops. -/

namespace Ns2.RouteAlgo

open List Nat Option

variable {r : List ℕ} {o : ℕ} {d : ℕ} {a : Analysis}

theorem getElem?_eq_entry {i : ℕ} (hi : i < r.length) : r[i]? = some (entry r i) := by
  rw [entry, getD_eq_getElem?_getD, getElem?_eq_getElem hi, getD_some]

/-- A next hop of one of the first `k` nodes. -/
def HopBefore (r : List ℕ) (o k v : ℕ) : Prop := ∃ t < k, t ≠ o ∧ entry r t = v

theorem hopBefore_succ {k v : ℕ} :
    HopBefore r o (k + 1) v ↔ (k ≠ o ∧ entry r k = v) ∨ HopBefore r o k v := by
  constructor
  · rintro ⟨t, ht, hto, hv⟩
    rcases eq_or_lt_of_le (le_of_lt_succ ht) with rfl | hlt
    · exact .inl ⟨hto, hv⟩
    · exact .inr ⟨t, hlt, hto, hv⟩
  · rintro (⟨hko, hv⟩ | ⟨t, ht, hto, hv⟩)
    · exact ⟨k, lt_succ_self k, hko, hv⟩
    · exact ⟨t, lt_succ_of_lt ht, hto, hv⟩

/-- An entry that is not the default, before `k`. -/
def NonDefault (r : List ℕ) (d o k t : ℕ) : Prop := t < k ∧ t ≠ o ∧ entry r t ≠ d

theorem getD_modify_pos {p : List ℕ} {hop v : ℕ} (hhop : hop < p.length) :
    0 < (p.modify hop (· + 1)).getD v 0 ↔ hop = v ∨ 0 < p.getD v 0 := by
  simp only [getD_eq_getElem?_getD, getElem?_modify]
  by_cases h : hop = v
  · subst h
    simp [getElem?_eq_getElem hhop]
  · simp [h]

namespace IsTable

theorem countHops_spec (h : IsTable r o) : ∃ p, countHops r o = some p ∧ p.length = r.length ∧
    ∀ v, 0 < p.getD v 0 ↔ HopBefore r o r.length v := by
  refine foldlM_range_of_step
    (P := fun k (p : List ℕ) => p.length = r.length ∧ ∀ v, 0 < p.getD v 0 ↔ HopBefore r o k v) ?_ ?_
  · rintro k hk p ⟨hlen, hpos⟩
    by_cases hko : k = o
    · refine ⟨p, if_neg (not_not_intro hko), hlen, fun v => ?_⟩
      rw [hpos, hopBefore_succ]
      simp [hko]
    · have hhop := h.hop k hk hko
      rw [← hlen] at hhop
      refine ⟨p.modify (entry r k) (· + 1), ?_, ?_, fun v => ?_⟩
      · rw [if_pos hko, countHop, if_pos hhop]
      · rw [length_modify, hlen]
      · rw [getD_modify_pos hhop, hopBefore_succ, hpos]
        simp [hko]
  · refine ⟨length_replicate, fun v => iff_of_false ?_ ?_⟩
    · rw [getD_eq_getElem?_getD, getElem?_replicate]
      split_ifs <;> exact lt_irrefl 0
    · rintro ⟨t, ht, -⟩
      exact not_lt_zero t ht

end IsTable

theorem largest_spec {p : List ℕ} (hpos : 0 < p.length) (hle : p.length ≤ nodeNone) :
    largest p < p.length ∧ ∀ i < p.length, p.getD i 0 ≤ p.getD (largest p) 0 := by
  have hloop := foldl_range_of_step (n := p.length) (s := nodeNone)
    (f := fun largest i => if largest = nodeNone ∨ p.getD i 0 > p.getD largest 0 then i else largest)
    (P := fun k best => (k = 0 ∧ best = nodeNone) ∨
      (best < k ∧ ∀ i < k, p.getD i 0 ≤ p.getD best 0)) ?_ (.inl ⟨rfl, rfl⟩)
  · exact hloop.resolve_left fun h => hpos.ne' h.1
  · rintro k hk best hbest
    refine .inr ?_
    split_ifs with h
    · refine ⟨lt_succ_self k, fun i hi => ?_⟩
      rcases eq_or_lt_of_le (le_of_lt_succ hi) with rfl | hlt
      · exact le_rfl
      · rcases hbest with ⟨rfl, -⟩ | ⟨hlt', hmax⟩
        · exact absurd hlt (not_lt_zero i)
        · rcases h with rfl | hgt
          · omega
          · exact (hmax i hlt).trans hgt.le
    · obtain ⟨hne, hgt⟩ := not_or.1 h
      obtain ⟨hlt, hmax⟩ := hbest.resolve_left fun h => hne h.2
      refine ⟨lt_succ_of_lt hlt, fun i hi => ?_⟩
      rcases eq_or_lt_of_le (le_of_lt_succ hi) with rfl | hlt
      · exact not_lt.1 hgt
      · exact hmax i hlt

theorem nonDefaults_spec (r : List ℕ) (d o : ℕ) (hle : r.length ≤ nodeNone) :
    (∀ t, ¬NonDefault r d o r.length t) ∨
      NonDefault r d o r.length (nonDefaults r d o).1 ∧
        NonDefault r d o r.length (nonDefaults r d o).2 ∧
        ∀ t, NonDefault r d o r.length t → (nonDefaults r d o).1 ≤ t ∧ t ≤ (nonDefaults r d o).2 := by
  have hloop := foldl_range_of_step (n := r.length) (s := (nodeNone, nodeNone))
    (f := fun fl i => if i ≠ o ∧ entry r i ≠ d then (if fl.1 = nodeNone then i else fl.1, i) else fl)
    (P := fun k fl => (fl.1 = nodeNone ∧ ∀ t, ¬NonDefault r d o k t) ∨
      (fl.1 ≠ nodeNone ∧ NonDefault r d o k fl.1 ∧ NonDefault r d o k fl.2 ∧
        ∀ t, NonDefault r d o k t → fl.1 ≤ t ∧ t ≤ fl.2)) ?_ (.inl ⟨rfl, fun t h => not_lt_zero t h.1⟩)
  · exact hloop.imp And.right And.right
  · rintro k hk ⟨f, l⟩ hfl
    dsimp only at hfl ⊢
    have hmono {t : ℕ} (h : NonDefault r d o k t) : NonDefault r d o (k + 1) t :=
      ⟨lt_succ_of_lt h.1, h.2⟩
    have hcases {t : ℕ} (h : NonDefault r d o (k + 1) t) : t = k ∨ NonDefault r d o k t :=
      (eq_or_lt_of_le (le_of_lt_succ h.1)).imp id fun hlt => ⟨hlt, h.2⟩
    by_cases hk' : k ≠ o ∧ entry r k ≠ d
    · have hnew : NonDefault r d o (k + 1) k := ⟨lt_succ_self k, hk'⟩
      rw [if_pos hk']
      rcases hfl with ⟨rfl, hnone⟩ | ⟨hf, hfirst, -, hall⟩
      · rw [if_pos rfl]
        refine .inr ⟨(hk.trans_le hle).ne, hnew, hnew, fun t ht => ?_⟩
        obtain rfl := (hcases ht).resolve_right (hnone t)
        exact ⟨le_rfl, le_rfl⟩
      · rw [if_neg hf]
        refine .inr ⟨hf, hmono hfirst, hnew, fun t ht => ?_⟩
        rcases hcases ht with rfl | ht
        · exact ⟨hfirst.1.le, le_rfl⟩
        · exact ⟨(hall t ht).1, ht.1.le⟩
    · rw [if_neg hk']
      refine hfl.imp (fun h => ⟨h.1, fun t ht => ?_⟩) fun h => ⟨h.1, hmono h.2.1, hmono h.2.2.1, ?_⟩
      · rcases hcases ht with rfl | ht
        · exact hk' ht.2
        · exact h.2 t ht
      · intro t ht
        rcases hcases ht with rfl | ht
        · exact absurd ht.2 hk'
        · exact h.2.2.2 t ht

/-- What the analysis finds. -/
structure Analyzed (r : List ℕ) (o : ℕ) (a : Analysis) : Prop where
  hops : ∀ v, v ∈ nonzero a.p ↔ HopBefore r o r.length v
  length : (nonzero a.p).length ≤ r.length
  single : ¬TwoHops r o → ∀ t < r.length, t ≠ o → entry r t = a.d
  first : TwoHops r o → NonDefault r a.d o r.length a.f
  last : TwoHops r o → NonDefault r a.d o r.length a.l
  between : TwoHops r o → ∀ t, NonDefault r a.d o r.length t → a.f ≤ t ∧ t ≤ a.l

theorem exists_nonDefault (h : TwoHops r o) (d : ℕ) : ∃ t, NonDefault r d o r.length t := by
  obtain ⟨t, ht, hto, u, hu, huo, hne⟩ := h
  by_cases htd : entry r t = d
  · exact ⟨u, hu, huo, fun hud => hne (htd.trans hud.symm)⟩
  · exact ⟨t, ht, hto, htd⟩

theorem mem_nonzero {p : List ℕ} {v : ℕ} : v ∈ nonzero p ↔ 0 < p.getD v 0 := by
  rw [nonzero, mem_filter, mem_range, decide_eq_true_iff, pos_iff_ne_zero]
  refine and_iff_right_of_imp fun h => ?_
  by_contra hlt
  exact h (getD_eq_default _ _ (not_lt.1 hlt))

theorem IsTable.analyze_spec (h : IsTable r o) : ∃ a, analyze r o = some a ∧ Analyzed r o a := by
  obtain ⟨p, hp, hlen, hpos⟩ := h.countHops_spec
  have hplen : 0 < p.length := hlen ▸ zero_lt_of_lt h.owner
  obtain ⟨hlt, hmax⟩ := largest_spec hplen (hlen ▸ h.size)
  have hhops (v : ℕ) : v ∈ nonzero p ↔ HopBefore r o r.length v := mem_nonzero.trans (hpos v)
  have hlength : (nonzero p).length ≤ r.length := by
    rw [nonzero, ← hlen]
    exact (length_filter_le _ _).trans_eq length_range
  set d := if (nonzero p).length = 0 then nodeNone else largest p with hd
  have hsingle (hone : ¬TwoHops r o) (t : ℕ) (ht : t < r.length) (hto : t ≠ o) : entry r t = d := by
    have hmem : entry r t ∈ nonzero p := (hhops _).2 ⟨t, ht, hto, rfl⟩
    have hbest : 0 < p.getD (largest p) 0 :=
      (mem_nonzero.1 hmem).trans_le (hmax _ (hlen ▸ h.hop t ht hto))
    obtain ⟨u, hu, huo, heq⟩ := (hpos _).1 hbest
    rw [hd, if_neg (length_pos_of_mem hmem).ne', ← heq]
    by_contra hne
    exact hone ⟨t, ht, hto, u, hu, huo, hne⟩
  have hanalyze : analyze r o = if (nonzero p).length = 1 then
        some ⟨p, d, p.getD (largest p) 0, nodeNone, nodeNone⟩
      else some ⟨p, d, p.getD (largest p) 0, (nonDefaults r d o).1, (nonDefaults r d o).2⟩ := by
    have hget : p[largest p]? = some (p.getD (largest p) 0) := by
      rw [getD_eq_getElem _ _ hlt, getElem?_eq_getElem hlt]
    simp only [analyze, hp, hget, bind_eq_bind, bind_some, hd]
  rw [hanalyze]
  by_cases htwo : TwoHops r o
  · have hne : (nonzero p).length ≠ 1 := by
      obtain ⟨t, ht, hto, u, hu, huo, hne⟩ := htwo
      intro hone
      obtain ⟨x, hx⟩ := length_eq_one_iff.1 hone
      have hmem := (hhops _).2 ⟨t, ht, hto, rfl⟩
      have hmem' := (hhops _).2 ⟨u, hu, huo, rfl⟩
      rw [hx, mem_singleton] at hmem hmem'
      exact hne (hmem.trans hmem'.symm)
    obtain ⟨t, ht⟩ := exists_nonDefault htwo d
    obtain ⟨hfirst, hlast, hbetween⟩ :=
      (nonDefaults_spec r d o h.size).resolve_left fun hnone => hnone t ht
    rw [if_neg hne]
    exact ⟨_, rfl, hhops, hlength, hsingle, fun _ => hfirst, fun _ => hlast, fun _ => hbetween⟩
  · split_ifs
    · exact ⟨_, rfl, hhops, hlength, hsingle, fun h => absurd h htwo, fun h => absurd h htwo,
        fun h => absurd h htwo⟩
    · exact ⟨_, rfl, hhops, hlength, hsingle, fun h => absurd h htwo, fun h => absurd h htwo,
        fun h => absurd h htwo⟩

theorem Analyzed.right_fr (h : Analyzed r o a) (hone : ¬TwoHops r o) :
    Right (FRLookup.populate a).lookup r o := fun t ht hto =>
  congrArg some (h.single hone t ht hto).symm

theorem right_nh (r : List ℕ) (o : ℕ) : Right (NHLookup.populate r).lookup r o := by
  intro t ht _
  rw [NHLookup.lookup]
  exact (if_neg (not_le.2 ht)).trans (getElem?_eq_entry ht)

namespace HMLookup

theorem find_singleton (t e k : ℕ) :
    StdMap.find equalTo [(t, e)] k = if t = k then none else some (t, e) := by
  split_ifs with h
  · simp [StdMap.find, equalTo, h]
  · simp [StdMap.find, equalTo, h, Ne.symm h]

end HMLookup

theorem IsTable.addRoute_eq (h : IsTable r o) (d : ℕ) {k : ℕ} (hk : k < r.length) (m : StdMap) :
    HMLookup.addRoute r d m k =
      if k ≠ o ∧ entry r k ≠ d then m.insert HMLookup.equalTo (k, entry r k) else m := by
  have howner : entry r o = nodeNone :=
    Option.some.inj ((getElem?_eq_entry h.owner).symm.trans h.none)
  refine if_congr ⟨fun hne => ⟨fun hko => hne.2 (hko ▸ howner), hne.1⟩, fun hne => ⟨hne.2, ?_⟩⟩ rfl rfl
  exact ((h.hop k hk hne.1).trans_le h.size).ne

theorem IsTable.routeMap_spec (h : IsTable r o) (d : ℕ) :
    (∀ t, ¬NonDefault r d o r.length t) ∨ ∃ t, NonDefault r d o r.length t ∧
      (range r.length).foldl (HMLookup.addRoute r d) [] = [(t, entry r t)] := by
  have hloop := foldl_range_of_step (n := r.length) (s := []) (f := HMLookup.addRoute r d)
    (P := fun k m => ((∀ t, ¬NonDefault r d o k t) ∧ m = []) ∨
      ∃ t, NonDefault r d o k t ∧ m = [(t, entry r t)]) ?_ (.inl ⟨fun t h => not_lt_zero t h.1, rfl⟩)
  · exact hloop.imp_left And.left
  · intro k hk m hm
    rw [h.addRoute_eq d hk]
    by_cases hk' : k ≠ o ∧ entry r k ≠ d
    · rw [if_pos hk', StdMap.insert]
      rcases hm with ⟨-, rfl⟩ | ⟨t, ht, rfl⟩
      · exact .inr ⟨k, ⟨lt_succ_self k, hk'⟩, rfl⟩
      · rw [HMLookup.find_singleton, if_neg ht.1.ne, if_pos isSome_some]
        exact .inr ⟨t, ⟨lt_succ_of_lt ht.1, ht.2⟩, rfl⟩
    · rw [if_neg hk']
      refine hm.imp (fun hm => ⟨fun t ht => ?_, hm.2⟩) fun ⟨t, ht, hm⟩ =>
        ⟨t, ⟨lt_succ_of_lt ht.1, ht.2⟩, hm⟩
      rcases eq_or_lt_of_le (le_of_lt_succ ht.1) with rfl | hlt
      · exact hk' ht.2
      · exact hm.1 t ⟨hlt, ht.2⟩

theorem IsTable.not_right_hm (h : IsTable r o) (htwo : TwoHops r o) :
    ¬Right (HMLookup.populate r a).lookup r o := by
  obtain ⟨u, hu⟩ := exists_nonDefault htwo a.d
  obtain ⟨t, ht, hmap⟩ := (h.routeMap_spec a.d).resolve_left fun hnone => hnone u hu
  intro hright
  have hlookup := hright t ht.1 ht.2.1
  rw [HMLookup.lookup, HMLookup.populate, hmap, HMLookup.find_singleton, if_pos rfl] at hlookup
  exact ht.2.2 (Option.some.inj hlookup).symm

/-- The bitmap holds the neighbor indices of the entries from the first to the last. -/
theorem Analyzed.populate_bm (h : IsTable r o) (ha : Analyzed r o a) (htwo : TwoHops r o) {w : ℕ}
    (hw : w = 32 ∨ w = 64) : ∃ b : BitMap w,
      BMLookup.populate w r a = some ⟨a.d, a.f, a.l, nonzero a.p, b⟩ ∧
      b.bpe = BitMap.findBPE (nonzero a.p).length ∧ b.size = a.l - a.f + 1 ∧
      b.Holds (fun k => (nonzero a.p).idxOf (entry r (a.f + k))) (a.l - a.f + 1) := by
  have hfirst := ha.first htwo
  have hlast := ha.last htwo
  have hle := (ha.between htwo a.l hlast).1
  have hlt : (nonzero a.p).length < 2 ^ 32 :=
    (ha.length.trans h.size).trans_lt (by decide)
  have hpos : 0 < (nonzero a.p).length :=
    length_pos_of_mem ((ha.hops _).2 ⟨a.f, hfirst.1, hfirst.2.1, rfl⟩)
  have hbpe := BitMap.lt_findBPE hlt
  have hstep (k : ℕ) (hk : k < a.l - a.f + 1) (b : BitMap w)
      (hb : b.size = a.l - a.f + 1 ∧ b.bpe = BitMap.findBPE (nonzero a.p).length ∧
        b.Holds (fun k => (nonzero a.p).idxOf (entry r (a.f + k))) k) :
      ∃ b', BMLookup.setEntry r (nonzero a.p) a.f b k = some b' ∧ b'.size = a.l - a.f + 1 ∧
        b'.bpe = BitMap.findBPE (nonzero a.p).length ∧
        b'.Holds (fun k => (nonzero a.p).idxOf (entry r (a.f + k))) (k + 1) := by
    obtain ⟨hsize, hbits, hholds⟩ := hb
    have hk' : a.f + k < r.length := by
      have hl := hlast.1
      omega
    obtain ⟨b', hb', hholds', hsize', hbits'⟩ := hholds.set (hsize ▸ hk)
      (by rw [hbits]; exact idxOf_le_length.trans_lt hbpe)
    refine ⟨b', ?_, hsize'.trans hsize, hbits'.trans hbits, hholds'⟩
    rw [BMLookup.setEntry, getElem?_eq_entry hk']
    exact hb'
  have hnew := BitMap.holds_new hw (fun k => (nonzero a.p).idxOf (entry r (a.f + k)))
    (a.l - a.f + 1) (BitMap.findBPE_pos hlt hpos) (BitMap.findBPE_le _)
  obtain ⟨b, hb, hsize, hbits, hholds⟩ := foldlM_range_of_step hstep ⟨rfl, rfl, hnew⟩
  refine ⟨b, ?_, hbits, hsize, hholds⟩
  rw [BMLookup.populate]
  simp only [hb, bind_eq_bind, bind_some]

theorem getElem?_eq_some_iff_idxOf {l : List ℕ} (hl : l.Nodup) {v j : ℕ} (hv : v ∈ l)
    (hj : j ≤ l.idxOf v) : l[j]? = some v ↔ j = l.idxOf v := by
  have hlt := idxOf_lt_length_iff.2 hv
  rw [getElem?_eq_getElem (hj.trans_lt hlt), some_inj]
  nth_rewrite 2 [← getElem_idxOf hlt]
  exact hl.getElem_inj_iff

/-- What the bitmap gives for an entry between the first and the last: the neighbor whose index has
the bits of the mask. -/
theorem Analyzed.right_bm_iff (h : IsTable r o) (ha : Analyzed r o a) (htwo : TwoHops r o) {w : ℕ}
    (hw : w = 32 ∨ w = 64) : ∃ m, BMLookup.populate w r a = some m ∧ (Right m.lookup r o ↔
      w = 32 ∨ ∀ t, a.f ≤ t → t ≤ a.l → t ≠ o → (nonzero a.p).idxOf (entry r t) ≤ 1) := by
  obtain ⟨b, hb, hbits, hsize, hholds⟩ := ha.populate_bm h htwo hw
  refine ⟨_, hb, ?_⟩
  have hmem {t : ℕ} (ht : t < r.length) (hto : t ≠ o) : entry r t ∈ nonzero a.p :=
    (ha.hops _).2 ⟨t, ht, hto, rfl⟩
  have hnodup : (nonzero a.p).Nodup := nodup_range.filter _
  have hlast := (ha.last htwo).1
  have hout (t : ℕ) (ht : t < r.length) (hto : t ≠ o) (hrange : t < a.f ∨ a.l < t) :
      entry r t = a.d := by
    by_contra hne
    have hbetween := ha.between htwo t ⟨ht, hto, hne⟩
    omega
  have hin {t : ℕ} (ht : t < r.length) (hto : t ≠ o) (hf : a.f ≤ t) (hl : t ≤ a.l) :
      BMLookup.lookup ⟨a.d, a.f, a.l, nonzero a.p, b⟩ t =
        (nonzero a.p)[(nonzero a.p).idxOf (entry r t) % 2 ^ BitMap.maskBits w b.bpe]? := by
    have hget := hholds.get (show t - a.f < a.l - a.f + 1 by omega) (hsize ▸ by omega)
    rw [Nat.add_sub_cancel' hf] at hget
    rw [BMLookup.lookup, if_neg (not_lt.2 hf), if_neg (not_lt.2 hl), hget]
    rfl
  have hentry {t : ℕ} (ht : t < r.length) (hto : t ≠ o) (hf : a.f ≤ t) (hl : t ≤ a.l) :
      BMLookup.lookup ⟨a.d, a.f, a.l, nonzero a.p, b⟩ t = some (entry r t) ↔
        w = 32 ∨ (nonzero a.p).idxOf (entry r t) ≤ 1 := by
    rw [hin ht hto hf hl, getElem?_eq_some_iff_idxOf hnodup (hmem ht hto) (mod_le _ _)]
    have hlt := hholds.lt (t - a.f) (by omega)
    rw [Nat.add_sub_cancel' hf] at hlt
    rcases hw with rfl | rfl
    · exact iff_of_true (Nat.mod_eq_of_lt hlt) (.inl rfl)
    · rw [BitMap.maskBits, if_neg (by decide)]
      omega
  constructor
  · intro hright
    by_cases h32 : w = 32
    · exact .inl h32
    · refine .inr fun t hf hl hto => ?_
      have ht := hl.trans_lt hlast
      exact ((hentry ht hto hf hl).1 (hright t ht hto)).resolve_left h32
  · intro hcond t ht hto
    by_cases hf : t < a.f
    · rw [hout t ht hto (.inl hf)]
      exact if_pos hf
    · by_cases hl : a.l < t
      · rw [hout t ht hto (.inr hl)]
        exact (if_neg hf).trans (if_pos hl)
      · exact (hentry ht hto (not_lt.1 hf) (not_lt.1 hl)).2
          (hcond.imp id fun hcond => hcond t (not_lt.1 hf) (not_lt.1 hl) hto)

/-- The representations agree with the table exactly when there are no two different next hops: if
there are, the map is wrong. The bitmap is right if a `u_long` has 32 bits, and if it has 64 bits
exactly for the neighbors of the first two indices; the array is always right. -/
theorem agree_iff (r : List ℕ) (o : ℕ) (h : IsTable r o) :
    (Agree r o ↔ ¬TwoHops r o) ∧ ∃ a, analyze r o = some a ∧ (TwoHops r o →
      (∃ m, BMLookup.populate 32 r a = some m ∧ Right m.lookup r o) ∧
      (∃ m, BMLookup.populate 64 r a = some m ∧ (Right m.lookup r o ↔
        ∀ t, a.f ≤ t → t ≤ a.l → t ≠ o → (nonzero a.p).idxOf (entry r t) ≤ 1)) ∧
      ¬Right (HMLookup.populate r a).lookup r o ∧ Right (NHLookup.populate r).lookup r o) := by
  obtain ⟨a, ha, hana⟩ := h.analyze_spec
  refine ⟨⟨?_, fun hone => ⟨a, ha, hana.right_fr, fun htwo => absurd htwo hone⟩⟩,
    a, ha, fun htwo => ?_⟩
  · rintro ⟨a', ha', -, hright⟩ htwo
    exact h.not_right_hm htwo (hright htwo).2.1
  · obtain ⟨m, hm, hiff⟩ := hana.right_bm_iff h htwo (.inl rfl)
    obtain ⟨m', hm', hiff'⟩ := hana.right_bm_iff h htwo (.inr rfl)
    refine ⟨⟨m, hm, hiff.2 (.inl rfl)⟩, ⟨m', hm', ?_⟩, h.not_right_hm htwo, right_nh r o⟩
    rw [hiff', or_iff_right (by decide)]

/-- Three nodes, of which the first has the others as next hops. -/
theorem agree_iff_sample : (Agree [nodeNone, 1, 2] 0 ↔ ¬TwoHops [nodeNone, 1, 2] 0) ∧
    ∃ a, analyze [nodeNone, 1, 2] 0 = some a ∧ (TwoHops [nodeNone, 1, 2] 0 →
      (∃ m, BMLookup.populate 32 [nodeNone, 1, 2] a = some m ∧ Right m.lookup [nodeNone, 1, 2] 0) ∧
      (∃ m, BMLookup.populate 64 [nodeNone, 1, 2] a = some m ∧ (Right m.lookup [nodeNone, 1, 2] 0 ↔
        ∀ t, a.f ≤ t → t ≤ a.l → t ≠ 0 →
          (nonzero a.p).idxOf (entry [nodeNone, 1, 2] t) ≤ 1)) ∧
      ¬Right (HMLookup.populate [nodeNone, 1, 2] a).lookup [nodeNone, 1, 2] 0 ∧
      Right (NHLookup.populate [nodeNone, 1, 2]).lookup [nodeNone, 1, 2] 0) :=
  agree_iff [nodeNone, 1, 2] 0 ⟨by decide, rfl, by decide, by decide⟩

/-- The map gives node 1 for node 2. -/
theorem not_agree_two_hops : ¬Agree [nodeNone, 1, 2] 0 := by
  rintro ⟨a, ha, -, hright⟩
  have htwo : TwoHops [nodeNone, 1, 2] 0 := ⟨1, by decide, by decide, 2, by decide, by decide, by decide⟩
  have hlookup := (hright htwo).2.1 2 (by decide) (by decide)
  obtain rfl : (⟨[0, 1, 1], 1, 1, 2, 2⟩ : Analysis) = a := Option.some.inj ha
  exact absurd hlookup (by decide)

end Ns2.RouteAlgo
