import Ns2.Nix.BfsTree

/-! A packet with the vector that `computeNixVector` makes goes over a path with the fewest hops. -/

namespace Ns2

open Option

namespace NixNode

variable {n : NixNode} {t : ℕ}

theorem search_spec {l : List ℕ} (i : ℕ) (ht : t ∈ l) :
    ∃ j, l[j]? = some t ∧ getNix.search n t i l = (BitVec.ofNat 32 (i + j), n.getNixl) := by
  induction l generalizing i with
  | nil => exact absurd ht List.not_mem_nil
  | cons m rest ih =>
    unfold getNix.search
    by_cases hm : m = t
    · exact ⟨0, by rw [List.getElem?_cons_zero, hm], if_pos hm⟩
    · obtain ⟨j, hj, hs⟩ := ih (i + 1) ((List.mem_cons.1 ht).resolve_left (Ne.symm hm))
      refine ⟨j + 1, by rw [List.getElem?_cons_succ, hj], ?_⟩
      rw [if_neg hm, hs, Nat.add_right_comm, Nat.add_assoc]

theorem getNix_spec (ht : t ∈ n.adj) : ∃ nix, n.getNix t = (nix, n.getNixl) ∧ nix ≠ nixNone ∧
    NixVec.FitsIn nix n.getNixl ∧ n.getNeighbor nix = some t ∧
    n.getNsNeighbor nix = some (.linkHead n.id t) := by
  obtain ⟨j, hj, hs⟩ := search_spec (n := n) 0 ht
  rw [Nat.zero_add] at hs
  have hlt : j < n.adj.length := (List.getElem?_eq_some_iff.1 hj).1
  have hsize := n.adj_lt
  have hnat : (BitVec.ofNat 32 j).toNat = j := by
    rw [BitVec.toNat_ofNat, Nat.mod_eq_of_lt (hlt.trans hsize)]
  have hlast : (BitVec.ofNat 32 n.adj.length - 1).toNat = n.adj.length - 1 := by
    rw [BitVec.toNat_sub, BitVec.toNat_ofNat]
    have hone : (1 : BitVec 32).toNat = 1 := rfl
    rw [hone]
    omega
  refine ⟨_, hs, fun hnone => ?_, NixVec.fitsIn_getBitl ?_, ?_, ?_⟩
  · have hnone' := congrArg BitVec.toNat hnone
    rw [hnat] at hnone'
    have hval : nixNone.toNat = 2 ^ 32 - 1 := rfl
    omega
  · rw [hnat, hlast]
    omega
  · rw [getNeighbor, hnat, hj]
  · rw [getNsNeighbor, hnat, adjObj, List.getElem?_map, hj]
    rfl

end NixNode

namespace NixRoute

open NixVec

variable {N : List NixNode} {s t u v k fuel : ℕ} {l : List ℕ} {nv nv' : NixVec}

/-- The first `k` bits of the vector spell the way over the nodes of `l`, to the last one `v`. -/
inductive Spells (N : List NixNode) (s : ℕ) (nv : NixVec) : List ℕ → ℕ → ℕ → Prop
  | nil : Spells N s nv [s] s 0
  | snoc {l : List ℕ} {u k v : ℕ} {n : NixNode} (h : Spells N s nv l u k) (hn : N[u]? = some n)
    (hv : v ∈ n.adj)
    (hbits : ∀ j < n.getNixl,
      bitAt nv.words (k + j) = (n.getNix v).1.getMsbD (32 - n.getNixl + j)) :
    Spells N s nv (l ++ [v]) v (k + n.getNixl)

theorem Spells.congr (h : Spells N s nv l v k)
    (hbits : ∀ i < k, bitAt nv'.words i = bitAt nv.words i) : Spells N s nv' l v k := by
  induction h with
  | nil => exact .nil
  | snoc h hn hv hb ih =>
    refine .snoc (ih fun i hi => hbits i (by omega)) hn hv fun j hj => ?_
    rw [hbits _ (by omega), hb j hj]

theorem nixPred_spec (fuel : ℕ) {parent : List (Option ℕ)}
    (h : Ancestry s (fun v u => parent[v]? = some (some u)) (Link N) v l) (hf : l.length ≤ fuel) :
    ∃ nv, nixPred s parent N fuel v .init = some nv ∧ Fresh nv ∧ Spells N s nv l v nv.used := by
  induction h generalizing fuel with
  | root =>
    obtain ⟨fuel, rfl⟩ := Nat.exists_eq_add_of_lt hf
    exact ⟨.init, if_pos rfl, Fresh.init, .nil⟩
  | @snoc u v l hne hparent hadj h ih =>
    obtain ⟨n, hn, hv⟩ := hadj
    obtain ⟨fuel, rfl⟩ := Nat.exists_eq_add_of_lt (Nat.lt_of_lt_of_le Nat.zero_lt_one
      ((Nat.le_add_left 1 l.length).trans (List.length_append.symm.trans_le hf)))
    obtain ⟨nv, hnv, hfresh, hspells⟩ := ih (0 + fuel)
      (by rw [List.length_append, List.length_singleton] at hf; omega)
    obtain ⟨nix, hnix, hnone, hfits, -⟩ := NixNode.getNix_spec hv
    have hkeep : ∀ i < nv.used, bitAt (nv.add nix n.getNixl).words i = bitAt nv.words i := by
      intro i hi
      have hout : ¬(nv.used ≤ i ∧ i < nv.used + n.getNixl) := by omega
      rw [hfresh.bitAt_add hfits]
      simp [hout]
    refine ⟨nv.add nix n.getNixl, ?_, hfresh.add hfits, ?_⟩
    · unfold nixPred
      rw [if_neg (Ne.symm hne), hparent, bind_eq_bind, bind_some]
      dsimp only
      rw [hnv, hn]
      simp [hnix, hnone]
    · rw [add_used hfits.1]
      refine .snoc (hspells.congr hkeep) hn hv fun j hj => ?_
      have hin : nv.used ≤ nv.used + j ∧ nv.used + j < nv.used + n.getNixl := by omega
      rw [hfresh.bitAt_add hfits, hfresh.clear _ (Nat.le_add_right _ _), hnix,
        Nat.add_sub_cancel_left]
      simp [hj]

theorem travel_hop {n : NixNode} (hn : N[u]? = some n) (hne : t ≠ n.id) (hv : v ∈ n.adj)
    (hk : k + n.getNixl ≤ nv.alth) (hbits : ∀ j < n.getNixl,
      bitAt nv.words (k + j) = (n.getNix v).1.getMsbD (32 - n.getNixl + j)) :
    travel N (fuel + 1) u ⟨t, nv, k⟩ =
      (travel N fuel v ⟨t, nv, k + n.getNixl⟩).map fun r => (u :: r.1, r.2) := by
  obtain ⟨nix, hnix, -, hfits, hneighbor, hobj⟩ := NixNode.getNix_spec hv
  rw [hnix] at hbits
  have hfind : find N u ⟨t, nv, k⟩ = some (.linkHead n.id v, ⟨t, nv, k + n.getNixl⟩) := by
    unfold find
    rw [hn, bind_eq_bind, bind_some]
    dsimp only
    rw [if_neg hne, extract_field hfits hk hbits]
    dsimp only
    rw [hneighbor, hobj]
    rfl
  conv_lhs => unfold travel
  rw [hfind, bind_eq_bind, bind_some]
  dsimp only
  cases travel N fuel v ⟨t, nv, k + n.getNixl⟩ <;> rfl

theorem Spells.getLast (h : Spells N s nv l v k) : l.getLast? = some v := by
  cases h with
  | nil => rfl
  | snoc => exact List.getLast?_concat

theorem Spells.travel (h : Spells N s nv l v k) (hN : Undirected N) (hk : k ≤ nv.alth)
    (ht : ∀ w ∈ l.dropLast, w ≠ t) : travel N (fuel + l.length) s ⟨t, nv, 0⟩ =
      (travel N (fuel + 1) v ⟨t, nv, k⟩).map fun r => (l.dropLast ++ r.1, r.2) := by
  induction h generalizing fuel with
  | nil => exact (map_id' ..).symm
  | @snoc l u k v n h hn hv hbits ih =>
    rw [List.dropLast_concat] at ht
    have hlast := List.dropLast_append_getLast? u h.getLast
    have hu : u ∈ l := by
      rw [← hlast]
      exact List.mem_append_right _ (List.mem_singleton_self u)
    have hne : t ≠ n.id := by
      rw [hN.id_eq hn]
      exact (ht u hu).symm
    rw [List.length_append, List.length_singleton, List.dropLast_concat, Nat.add_comm l.length,
      ← Nat.add_assoc, ih (by omega) fun w hw => ht w (List.dropLast_subset l hw),
      travel_hop hn hne hv hk hbits, map_map]
    congr 1
    funext r
    rw [← hlast]
    simp

theorem travel_arrived {n : NixNode} (hn : N[t]? = some n) (hid : n.id = t) :
    travel N (fuel + 1) t ⟨t, nv, k⟩ = some ([t], ⟨t, nv, k⟩) := by
  have hfind : find N t ⟨t, nv, k⟩ = some (.dmux, ⟨t, nv, k⟩) := by
    unfold find
    rw [hn, bind_eq_bind, bind_some]
    exact if_pos hid.symm
  unfold NixRoute.travel
  rw [hfind]
  rfl

/-- The vector from `s` to `t`, reset, takes a packet over a path with the fewest hops, and all its
bits are used at the end. -/
theorem computeNixVector_delivers (hN : Undirected N)
    (hconn : ∀ u < N.length, ∀ v < N.length, ∃ c, Walk (Hop (Link N)) u v c)
    (hs : s < N.length) (ht : t < N.length) (hf : N.length < fuel) :
    ∃ nv l, computeNixVector N fuel s t = some nv ∧
      travel N fuel s ⟨t, nv.reset, 0⟩ = some (l, ⟨t, nv.reset, nv.alth⟩) ∧
      l.head? = some s ∧ l.getLast? = some t ∧ l.IsChain (Link N) ∧
      ∀ c, Walk (Hop (Link N)) s t c → l.length ≤ c + 1 := by
  obtain ⟨nextHop, parent, seen, dist, hbfs, hfront, hseen⟩ := bfs_spec hN hs hf
  obtain ⟨c, hc⟩ := hconn s hs t ht
  obtain ⟨l, hl, hlen, hlt, hnodup, hl'⟩ := hfront.exists_ancestry (hfront.le_of_walk hc).1
  have hlen' : l.length ≤ fuel := by
    have hsub : l.Subperm (List.range N.length) :=
      hnodup.subperm fun w hw => List.mem_range.2 (hseen w (hl' w hw))
    have hle := hsub.length_le
    rw [List.length_range] at hle
    exact hle.trans hf.le
  obtain ⟨nv, hnv, hfresh, hspells⟩ := nixPred_spec _ hl hlen'
  refine ⟨nv, l, ?_, ?_, hl.path.1, hl.path.2.1, hl.path.2.2, fun c hc => ?_⟩
  · unfold computeNixVector
    rw [hbfs]
    exact hnv
  · have hspells' : Spells N s nv.reset l t nv.used := hspells.congr fun i hi => rfl
    obtain ⟨fuel, rfl⟩ := Nat.exists_eq_add_of_le' hlen'
    have hn := List.getElem?_eq_getElem ht
    rw [hspells'.travel hN hfresh.used.le fun w hw => ?_, travel_arrived hn (hN.id_eq hn),
      hfresh.used, map_some, List.dropLast_append_getLast? t hl.path.2.1]
    rintro rfl
    exact absurd (hlt w hw) (Nat.lt_irrefl _)
  · rw [hlen]
    exact Nat.succ_le_succ (hfront.le_of_walk hc).2

/-- Three nodes in a line. -/
def line : List NixNode := [⟨0, [1], by decide⟩, ⟨1, [0, 2], by decide⟩, ⟨2, [1], by decide⟩]

theorem link_line : Link line u v ↔ u < 3 ∧ v < 3 ∧ (u + 1 = v ∨ v + 1 = u) := by
  unfold Link line
  rcases u with - | - | - | u <;> simp <;> omega

theorem undirected_line : Undirected line := by
  refine ⟨fun {u n} hn => ?_, fun {u v} h => ?_⟩
  · unfold line at hn
    rcases u with - | - | - | u <;> simp at hn <;> rw [← hn]
  · rw [link_line] at h ⊢
    omega

theorem walk_line (hu : u < 3) (hv : v < 3) : ∃ c, Walk (Hop (Link line)) u v c := by
  have hstep : ∀ {a b}, a < 3 → b < 3 → a + 1 = b ∨ b + 1 = a → Walk (Hop (Link line)) a b 1 :=
    fun ha hb hab => Walk.single ⟨link_line.2 ⟨ha, hb, hab⟩, rfl⟩
  have hcenter : ∀ {a}, a < 3 → ∃ c, Walk (Hop (Link line)) a 1 c := by
    intro a ha
    by_cases h : a = 1
    · exact ⟨0, h ▸ Walk.nil⟩
    · exact ⟨1, hstep ha (by decide) (by omega)⟩
  obtain ⟨c, hc⟩ := hcenter hu
  by_cases h : v = 1
  · exact ⟨c, h ▸ hc⟩
  · exact ⟨c + 1, hc.snoc ⟨link_line.2 ⟨by decide, hv, by omega⟩, rfl⟩⟩

theorem computeNixVector_delivers_line : ∃ nv l, computeNixVector line 4 0 2 = some nv ∧
    travel line 4 0 ⟨2, nv.reset, 0⟩ = some (l, ⟨2, nv.reset, nv.alth⟩) ∧
    l.head? = some 0 ∧ l.getLast? = some 2 ∧ l.IsChain (Link line) ∧
    ∀ c, Walk (Hop (Link line)) 0 2 c → l.length ≤ c + 1 :=
  computeNixVector_delivers undirected_line (fun _ hu _ hv => walk_line hu hv) (by decide)
    (by decide) (by decide)

end NixRoute

end Ns2
