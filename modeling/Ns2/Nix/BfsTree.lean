import Mathlib.Data.Fintype.Basic
import Ns2.Lib.ShortestPath
import Ns2.Nix.NixRoute

/-! `BFS` comes to every node of a connected graph, and its parents lead back over the fewest hops. -/

namespace Ns2

open List Option RouteAlgo

namespace RouteAlgo.BitMap

variable {b : BitMap 32} {v w size : ℕ}

/-- A map of single bits. -/
structure OneBit (b : BitMap 32) : Prop extends b.WellFormed where
  one : b.bpe = 1

def isSet (b : BitMap 32) (v : ℕ) : Bool := b.bit v 0

theorem oneBit_new (size : ℕ) : (new 32 size 1).OneBit :=
  ⟨(holds_new (Or.inl rfl) (fun _ => 0) size Nat.one_pos (by decide)).toWellFormed, rfl⟩

theorem isSet_new : (new 32 size 1).isSet v = false := by
  unfold isSet bit new
  dsimp only
  rw [getElem?_replicate]
  split_ifs <;> exact BitVec.getLsbD_zero

section

variable (h : b.OneBit)
include h

theorem OneBit.get_eq (hv : v < b.size) : b.get v = some (if b.isSet v then 1 else 0) := by
  have hholds : b.Holds (fun j => if b.isSet j then 1 else 0) b.size := by
    refine ⟨h.toWellFormed, fun j _ => ?_, fun j hj x hx => ?_⟩
    · rw [h.one]
      split_ifs <;> decide
    · obtain rfl : x = 0 := by have := h.one; omega
      rw [decide_eq_true hj, Bool.true_and, ← isSet]
      cases b.isSet j <;> rfl
  rw [hholds.get hv hv, h.one]
  cases b.isSet v <;> rfl

theorem OneBit.set_eq (hv : v < b.size) : ∃ b', b.set v 1 = some b' ∧ b'.OneBit ∧
    b'.size = b.size ∧ ∀ w, b'.isSet w = (b.isSet w || decide (w = v)) := by
  have hepw : b.epw = 32 := by rw [h.epw, h.one]
  refine ⟨_, h.toWellFormed.set_eq hv, ⟨⟨h.width, h.pos, h.le, h.epw, fun j hj => ?_⟩, h.one⟩, rfl,
    fun w => ?_⟩
  · rw [length_set]
    exact h.words j hj
  · have hshift (j : ℕ) : b.shift j = j % 32 := by rw [shift, hepw, h.one, Nat.mul_one]
    change (((b.words.set (v / b.epw) (b.newWord v 1))[w / b.epw]?).getD 0).getLsbD (b.shift w + 0) =
      ((((b.words[w / b.epw]?).getD 0).getLsbD (b.shift w + 0)) || decide (w = v))
    by_cases hword : v / b.epw = w / b.epw
    · rw [← hword, getElem?_set_self (h.words v hv), Option.getD_some,
        h.getLsbD_newWord (by rw [h.one]; decide), hshift, hshift]
      rw [hepw] at hword
      by_cases hw : w = v
      · simp [hw]
      · have hne : ¬(v % 32 ≤ w % 32 ∧ w % 32 < v % 32 + 1) := by omega
        have hbit : (decide (v % 32 ≤ w % 32) && Nat.testBit 1 (w % 32 - v % 32)) = false := by
          by_cases hle : v % 32 ≤ w % 32
          · have hpos : w % 32 - v % 32 ≠ 0 := by omega
            rw [Nat.testBit_lt_two_pow (Nat.one_lt_two_pow hpos), Bool.and_false]
          · rw [decide_eq_false hle, Bool.false_and]
        rw [h.one, Nat.add_zero, maskBits, if_pos rfl, decide_eq_false hne, hbit, decide_eq_false hw,
          Bool.not_false, Bool.and_true]
    · have hw : w ≠ v := fun heq => hword (by rw [heq])
      rw [getElem?_set_ne hword, decide_eq_false hw, Bool.or_false]

end

end RouteAlgo.BitMap

namespace NixRoute

variable {N : List NixNode} {root u v : ℕ} {s s' : BfsState} {n : NixNode} {rest : List NixNode}

/-- There is an edge from `u` to `v`. -/
def Link (N : List NixNode) (u v : ℕ) : Prop := ∃ n, N[u]? = some n ∧ v ∈ n.adj

/-- Each node is kept under its identifier, and each edge leads to a node with an edge back. -/
structure Undirected (N : List NixNode) : Prop where
  id_eq : ∀ {u} {n : NixNode}, N[u]? = some n → n.id = u
  symm : ∀ {u v}, Link N u v → Link N v u

theorem Link.lt (h : Link N u v) : u < N.length := by
  obtain ⟨n, hn, -⟩ := h
  exact (List.getElem?_eq_some_iff.1 hn).1

theorem Undirected.lt (hN : Undirected N) (h : Link N u v) : v < N.length := (hN.symm h).lt

namespace BfsState

/-- The node is grey. -/
def Seen (s : BfsState) (v : ℕ) : Prop := v < s.B.size ∧ s.B.isSet v = true

def dist (s : BfsState) (v : ℕ) : ℕ := s.D.getD v inf

def HasParent (s : BfsState) (v u : ℕ) : Prop := s.parent[v]? = some (some u)

/-- The nodes that the search has still to come to or to leave. -/
def left (s : BfsState) : ℕ :=
  ((Finset.range s.B.size).filter fun v => s.B.isSet v = false).card + s.Q.length

end BfsState

/-- What the loops of `bfs` keep. -/
structure Searched (N : List NixNode) (root : ℕ) (s : BfsState) : Prop where
  grey : s.B.OneBit
  size : s.B.size = N.length
  length_D : s.D.length = N.length
  length_parent : s.parent.length = N.length
  queue : ∀ n ∈ s.Q, N[n.id]? = some n
  frontier : Frontier (Link N) root s.Seen (s.Q.map NixNode.id) s.dist s.HasParent

/-- `s'` follows `s` in the scan of the edges of the first node. -/
structure Scanned (s s' : BfsState) : Prop where
  head : s'.Q.head? = s.Q.head?
  seen : ∀ v, s.Seen v → s'.Seen v
  left : s'.left = s.left

theorem Scanned.refl (s : BfsState) : Scanned s s := ⟨rfl, fun _ h => h, rfl⟩

theorem Scanned.trans {s'' : BfsState} (h : Scanned s s') (h' : Scanned s' s'') : Scanned s s'' :=
  ⟨h'.head.trans h.head, fun v hv => h'.seen v (h.seen v hv), h'.left.trans h.left⟩

theorem card_white {b b' : BitMap 32} (hv : v < b.size) (hset : b.isSet v = false)
    (hsize : b'.size = b.size) (hb : ∀ w, b'.isSet w = (b.isSet w || decide (w = v))) :
    ((Finset.range b'.size).filter fun w => b'.isSet w = false).card + 1 =
      ((Finset.range b.size).filter fun w => b.isSet w = false).card := by
  have hmem : v ∈ (Finset.range b.size).filter fun w => b.isSet w = false :=
    Finset.mem_filter.2 ⟨Finset.mem_range.2 hv, hset⟩
  rw [← Finset.card_erase_add_one hmem, hsize]
  congr 2
  ext w
  simp only [Finset.mem_filter, Finset.mem_erase, hb w, Bool.or_eq_false_iff, decide_eq_false_iff_not]
  tauto

theorem Searched.visit (h : Searched N root s) (hq : s.Q = n :: rest) (hlt : v < N.length)
    (hset : s.B.isSet v = false) (hv : Link N n.id v) {m : NixNode} (hm : N[v]? = some m)
    (hid : m.id = v) {b : BitMap 32} (hgrey : b.OneBit) (hsize : b.size = s.B.size)
    (hb : ∀ w, b.isSet w = (s.B.isSet w || decide (w = v))) {nextHop : List (Option ℕ)} :
    Searched N root ⟨b, s.Q ++ [m], s.D.set v (s.D.getD n.id inf + 1), nextHop,
      s.parent.set v (some n.id)⟩ := by
  refine ⟨hgrey, hsize.trans h.size, (List.length_set ..).trans h.length_D,
    (List.length_set ..).trans h.length_parent, fun w hw => ?_, ?_⟩
  · rcases mem_append.1 hw with hw | hw
    · exact h.queue w hw
    · rw [mem_singleton.1 hw, hid, hm]
  · have hfront := h.frontier
    rw [hq, map_cons] at hfront
    have hvisit := hfront.visit (fun w => w < b.size ∧ b.isSet w = true)
      (fun w => (s.D.set v (s.D.getD n.id inf + 1)).getD w inf)
      (fun w p => (s.parent.set v (some n.id))[w]? = some (some p))
      (fun hseen => Bool.false_ne_true (hset.symm.trans hseen.2)) hv ?_ ?_ ?_ ?_ ?_
    · rw [hq, cons_append, map_cons, map_append, map_singleton, hid]
      exact hvisit
    · intro w
      rw [hsize, hb w, Bool.or_eq_true, decide_eq_true_iff, BfsState.Seen]
      constructor
      · rintro ⟨hw, hw' | hw'⟩
        · exact .inl ⟨hw, hw'⟩
        · exact .inr hw'
      · rintro (⟨hw, hw'⟩ | rfl)
        · exact ⟨hw, .inl hw'⟩
        · exact ⟨h.size ▸ hlt, .inr rfl⟩
    · intro w hw
      unfold BfsState.dist
      rw [getD_eq_getElem?_getD, getElem?_set_ne hw.symm, getD_eq_getElem?_getD]
    · rw [getD_eq_getElem?_getD, getElem?_set_self (h.length_D ▸ hlt)]
      rfl
    · intro w hw p hp
      rw [getElem?_set_ne hw.symm]
      exact hp
    · rw [getElem?_set_self (h.length_parent ▸ hlt)]

section

variable (hN : Undirected N)
include hN

theorem visit_spec (h : Searched N root s) (hq : s.Q.head? = some n)
    (hv : Link N n.id v) : ∃ s', visit N root n s v = some s' ∧ Searched N root s' ∧
      Scanned s s' ∧ s'.Seen v := by
  have hlt := hN.lt hv
  have hget := h.grey.get_eq (h.size ▸ hlt)
  unfold visit
  rw [hget]
  cases hset : s.B.isSet v with
  | true => exact ⟨s, rfl, h, .refl s, h.size ▸ hlt, hset⟩
  | false =>
    obtain ⟨b, hb, hgrey, hsize, hbits⟩ := h.grey.set_eq (h.size ▸ hlt)
    obtain ⟨rest, hQ⟩ := head?_eq_some_iff.1 hq
    have hm := getElem?_eq_getElem hlt
    refine ⟨⟨b, s.Q ++ [N[v]], s.D.set v (s.D.getD n.id inf + 1),
      s.nextHop.set v (if n.id = root then some v else s.nextHop.getD n.id none),
      s.parent.set v (some n.id)⟩, ?_,
      h.visit hQ hlt hset hv hm (hN.id_eq hm) hgrey hsize hbits, ⟨?_, fun w hw => ?_, ?_⟩, ?_⟩
    · rw [hm, hb]
      rfl
    · rw [hQ]
      rfl
    · exact ⟨hsize ▸ hw.1, by rw [hbits w, hw.2]; rfl⟩
    · have hcard := card_white (h.size ▸ hlt) hset hsize hbits
      unfold BfsState.left
      dsimp only
      rw [length_append, length_singleton]
      omega
    · exact ⟨hsize ▸ h.size ▸ hlt, by rw [hbits v]; simp⟩

theorem scan_spec {l : List ℕ} (hl : ∀ v ∈ l, Link N n.id v)
    (h : Searched N root s) (hq : s.Q.head? = some n) :
    ∃ s', l.foldlM (visit N root n) s = some s' ∧ Searched N root s' ∧ Scanned s s' ∧
      ∀ v ∈ l, s'.Seen v := by
  induction l generalizing s with
  | nil => exact ⟨s, rfl, h, .refl s, fun v hv => absurd hv not_mem_nil⟩
  | cons v l ih =>
    obtain ⟨s₁, hs₁, h₁, hscan, hv⟩ := visit_spec hN h hq (hl v mem_cons_self)
    obtain ⟨s₂, hs₂, h₂, hscan', hall⟩ :=
      ih (fun w hw => hl w (mem_cons_of_mem v hw)) h₁ (hscan.head.trans hq)
    refine ⟨s₂, ?_, h₂, hscan.trans hscan', fun w hw => ?_⟩
    · rw [foldlM_cons, hs₁]
      exact hs₂
    · rcases mem_cons.1 hw with rfl | hw
      · exact hscan'.seen _ hv
      · exact hall w hw

theorem search_spec {fuel : ℕ} (h : Searched N root s) (hf : s.left < fuel) :
    ∃ s', search N root fuel s = some s' ∧ Searched N root s' ∧ s'.Q = [] := by
  induction fuel generalizing s with
  | zero => exact absurd hf (Nat.not_lt_zero _)
  | succ fuel ih =>
    unfold search
    rcases hQ : s.Q with - | ⟨n, rest⟩
    · exact ⟨s, rfl, h, hQ⟩
    · have hn : N[n.id]? = some n := h.queue n (hQ ▸ mem_cons_self)
      obtain ⟨s₁, hs₁, h₁, hscan, hall⟩ :=
        scan_spec hN (l := n.adj) (fun v hv => ⟨n, hn, hv⟩) h (n := n) (by rw [hQ]; rfl)
      obtain ⟨rest', hQ'⟩ := head?_eq_some_iff.1 (hscan.head.trans (by rw [hQ]; rfl))
      have hfront := h₁.frontier
      rw [hQ', map_cons] at hfront
      have hleave : Searched N root { s₁ with Q := rest' } := by
        refine ⟨h₁.grey, h₁.size, h₁.length_D, h₁.length_parent, fun w hw => ?_, hfront.leave fun v hv => ?_⟩
        · exact h₁.queue w (hQ' ▸ mem_cons_of_mem n hw)
        · obtain ⟨n', hn', hv⟩ := hv
          obtain rfl := some_inj.1 (hn.symm.trans hn')
          exact hall v hv
      have hleft : BfsState.left { s₁ with Q := rest' } < fuel := by
        have hs₁ := hscan.left
        unfold BfsState.left at *
        rw [hQ', length_cons] at hs₁
        dsimp only
        omega
      obtain ⟨s', hs', h', hQ''⟩ := ih hleave hleft
      refine ⟨s', ?_, h', hQ''⟩
      dsimp only
      rw [hs₁, bind_eq_bind, bind_some, hQ']
      exact hs'

theorem init_spec (hroot : root < N.length) :
    ∃ s, BfsState.init N root = some s ∧ Searched N root s ∧ s.left = N.length := by
  obtain ⟨b, hb, hgrey, hsize, hbits⟩ := (BitMap.oneBit_new N.length).set_eq (v := root) hroot
  have hm := getElem?_eq_getElem hroot
  have hunset : (BitMap.new 32 N.length 1).isSet root = false := BitMap.isSet_new
  refine ⟨⟨b, [N[root]], (replicate N.length inf).set root 0, replicate N.length none,
    replicate N.length none⟩, ?_, ⟨hgrey, hsize, ?_, length_replicate, fun w hw => ?_, ?_⟩, ?_⟩
  · unfold BfsState.init
    rw [hb, hm]
    rfl
  · exact (List.length_set ..).trans length_replicate
  · rw [mem_singleton.1 hw, hN.id_eq hm, hm]
  · have hstart := Frontier.start (Link N) root
      (fun w => ((replicate N.length inf).set root 0).getD w inf) ?_
      fun w p => (replicate N.length (none : Option ℕ))[w]? = some (some p)
    · convert hstart using 1
      · funext w
        rw [BfsState.Seen, hbits w, BitMap.isSet_new, Bool.false_or, decide_eq_true_iff]
        refine propext ⟨And.right, fun hw => ⟨?_, hw⟩⟩
        rw [hw, hsize]
        exact hroot
      · exact congrArg (fun i => [i]) (hN.id_eq hm)
      · rfl
      · rfl
    · rw [getD_eq_getElem?_getD, getElem?_set_self (by simpa using hroot)]
      rfl
  · have hcard := card_white hroot hunset hsize hbits
    have hall : ((Finset.range N.length).filter fun w => (BitMap.new 32 N.length 1).isSet w = false) =
        Finset.range N.length := Finset.filter_true_of_mem fun w _ => BitMap.isSet_new
    have hinit : (BitMap.new 32 N.length 1).size = N.length := rfl
    rw [hinit, hall, Finset.card_range] at hcard
    exact hcard

theorem bfs_spec (hroot : root < N.length) {fuel : ℕ} (hf : N.length < fuel) :
    ∃ nextHop parent seen dist, bfs N root fuel = some (nextHop, parent) ∧
      Frontier (Link N) root seen [] dist (fun v u => parent[v]? = some (some u)) ∧
      ∀ v, seen v → v < N.length := by
  obtain ⟨s, hs, h, hleft⟩ := init_spec hN hroot
  obtain ⟨s', hs', h', hQ⟩ := search_spec hN h (hleft ▸ hf)
  refine ⟨s'.nextHop, s'.parent, s'.Seen, s'.dist, ?_, ?_, fun v hv => h'.size ▸ hv.1⟩
  · unfold bfs
    rw [hs, bind_eq_bind, bind_some, hs']
    rfl
  · have hfront := h'.frontier
    rw [hQ] at hfront
    exact hfront

end

end NixRoute

end Ns2
