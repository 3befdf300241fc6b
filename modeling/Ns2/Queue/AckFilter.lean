import Mathlib.Algebra.Ring.Int.Defs
import Ns2.Queue.SemanticPacketQueue

/-! What `filterAcks` makes of the list of packets, and when it and `remove` keep the counters. -/

namespace Ns2.SemanticPacketQueue

open List Option Function

variable {c : Config} {s s' : SemanticPacketQueue} {l l₁ l₂ m r : List Packet} {x y pkt : Packet}
  {pp : Option ℕ} {done : Bool} {p : ℕ} {h : Header}

/-- The packets of the queue in order. -/
structure Rep (s : SemanticPacketQueue) (l : List Packet) : Prop where
  chain : s.chain.Rep (l.map Packet.addr)
  packets : ∀ x ∈ l, s.packets x.addr = some x.hdr

/-- `len_`, `bytes_`, `ack_count` and `data_count` are the actual numbers. -/
structure Tallied (s : SemanticPacketQueue) (l : List Packet) : Prop where
  len : s.len = l.length
  bytes : s.bytes = (l.map fun x => x.hdr.size).sum
  ackCount : s.ackCount = l.countP fun x => x.hdr.isAck
  dataCount : s.dataCount = l.countP fun x => !x.hdr.isAck

structure Counted (s : SemanticPacketQueue) (l : List Packet) : Prop extends s.Tallied l where
  markedCount : s.markedCount = l.countP fun x => x.hdr.fs
  unmarkedCount : s.unmarkedCount = l.countP fun x => !x.hdr.fs

/-- The list when `pkt` has been filtered into it. -/
def filtered (c : Config) (pkt : Packet) (l : List Packet) : List Packet :=
  let young := fun x : Packet => decide (¬Older c x.hdr pkt.hdr)
  if c.replaceHead ∧ ∃ x ∈ l, Older c x.hdr pkt.hdr then
    l.takeWhile young ++ pkt :: (l.dropWhile young).filter young
  else l.filter young ++ [pkt]

theorem Rep.next (h : s.Rep (l₁ ++ x :: l₂)) :
    s.chain.next x.addr = l₂.head?.map Packet.addr := by
  have hchain := h.chain
  rw [map_append, map_cons] at hchain
  rw [hchain.next, head?_map]

theorem Rep.head (h : s.Rep l) : s.chain.head = l.head?.map Packet.addr := by
  rw [h.chain.head, head?_map]

theorem Rep.addr_ne (h : s.Rep (l₁ ++ x :: l₂)) (hy : y ∈ l₁ ++ l₂) : y.addr ≠ x.addr := by
  have hnodup := h.chain.nodup
  rw [map_append, map_cons, nodup_middle, nodup_cons, ← map_append] at hnodup
  exact fun heq => hnodup.1 (mem_map.2 ⟨y, hy, heq⟩)

theorem Rep.addr_ne_last (h : s.Rep (l ++ [x])) (hy : y ∈ l) : y.addr ≠ x.addr :=
  h.addr_ne (mem_append_left _ hy)

theorem exists_removeAfter {q : PacketQueue} (hp : q.packets p = some h) (a : ℕ) :
    ∃ q', q.removeAfter (some p) (some a) = some q' ∧ q'.packets = q.packets ∧
      (q.chain.head = some p → q'.chain.next = q.chain.next) := by
  by_cases hhead : q.chain.head = some p
  · have hpop : (q.chain.pop p).next = q.chain.next := by
      unfold TailQueue.pop
      split <;> rfl
    refine ⟨{ q with chain := q.chain.pop p, len := q.len - 1, bytes := q.bytes - h.size }, ?_, rfl,
      fun _ => hpop⟩
    simp [PacketQueue.removeAfter, PacketQueue.deque, hhead, hp]
  · refine ⟨{ q with chain := q.chain.unlink p a, len := q.len - 1, bytes := q.bytes - h.size }, ?_,
      rfl, fun heq => absurd heq hhead⟩
    simp [PacketQueue.removeAfter, PacketQueue.cut, hhead, hp]

theorem Rep.removeAfter (h : s.Rep (l₁ ++ x :: l₂))
    (hpp : l₁ ≠ [] → pp = l₁.getLast?.map Packet.addr) :
    ∃ k : TailQueue ℕ, s.removeAfter (some x.addr) pp = some { s.toPacketQueue with
        chain := k, len := s.len - 1, bytes := s.bytes - x.hdr.size } ∧
      k.Rep ((l₁ ++ l₂).map Packet.addr) := by
  have hx : s.packets x.addr = some x.hdr := h.packets x (by simp)
  have hchain := h.chain
  rcases eq_nil_or_concat' l₁ with rfl | ⟨m, y, rfl⟩
  · have hhead : s.chain.head = some x.addr := h.head
    refine ⟨s.chain.pop x.addr, ?_, hchain.pop⟩
    simp [PacketQueue.removeAfter, PacketQueue.deque, hhead, hx]
  · have hhead : s.chain.head ≠ some x.addr := by
      rw [h.head]
      intro heq
      obtain ⟨z, hz, hzx⟩ := map_eq_some_iff.1 heq
      have hmem : z ∈ m ++ [y] := by
        rw [head?_append_of_ne_nil _ (by simp)] at hz
        exact mem_of_head? hz
      exact h.addr_ne (mem_append_left l₂ hmem) hzx
    have hprev : pp = some y.addr := by
      rw [hpp (by simp), getLast?_concat]
      rfl
    simp only [map_append, map_cons, append_assoc,
      singleton_append] at hchain ⊢
    refine ⟨s.chain.unlink x.addr y.addr, ?_, hchain.unlink⟩
    simp [PacketQueue.removeAfter, PacketQueue.cut, hhead, hx, hprev]

theorem removeFrom_of_ne {a : ℕ} (ha : a ≠ p) : removeFrom c p s pp (some a) =
    removeFrom c p s (some a) (s.chain.next a) := by
  rw [removeFrom.eq_def]
  exact if_neg ha

theorem removeFrom_self (a : ℕ) : removeFrom c p s (some a) (some p) =
    (s.cut p a).map fun q => { s with toPacketQueue := q } := by
  rw [removeFrom.eq_def]
  exact if_pos rfl

theorem Rep.removeFrom_append (h : s.Rep (m ++ (l ++ r))) (hp : ∀ x ∈ l, x.addr ≠ p) :
    removeFrom c p s pp ((l ++ r).head?.map Packet.addr) =
      removeFrom c p s ((l.getLast?.map Packet.addr).or pp) (r.head?.map Packet.addr) := by
  induction l generalizing m pp with
  | nil => simp
  | cons x l ih =>
    rw [forall_mem_cons] at hp
    have hrest : s.Rep ((m ++ [x]) ++ (l ++ r)) := by simpa using h
    have hnext : s.chain.next x.addr = (l ++ r).head?.map Packet.addr := h.next
    rw [cons_append, head?_cons, map_some, removeFrom_of_ne hp.1, hnext,
      ih hrest hp.2, getLast?_cons]
    cases l.getLast? <;> rfl

theorem Rep.removeFrom_cut (h : s.Rep (l₁ ++ y :: x :: l₂)) :
    removeFrom c x.addr s none s.chain.head = some { s with
      chain := s.chain.unlink x.addr y.addr, len := s.len - 1, bytes := s.bytes - x.hdr.size } := by
  have hne : ∀ z ∈ l₁ ++ [y], z.addr ≠ x.addr := by
    intro z hz
    have hsplit : s.Rep ((l₁ ++ [y]) ++ x :: l₂) := by simpa using h
    exact hsplit.addr_ne (mem_append_left l₂ hz)
  have hrep : s.Rep ([] ++ ((l₁ ++ [y]) ++ x :: l₂)) := by simpa using h
  have hx : s.packets x.addr = some x.hdr := h.packets x (by simp)
  have hhead : s.chain.head = ((l₁ ++ [y]) ++ x :: l₂).head?.map Packet.addr := hrep.head
  rw [hhead, hrep.removeFrom_append hne, getLast?_concat, head?_cons, map_some,
    map_some, some_or, removeFrom_self]
  simp [PacketQueue.cut, hx]

section Loop

variable {a : ℕ} {th tcph : Header} (ha : s.packets a = some th) (hp : s.packets p = some tcph)

include ha hp

theorem filterFrom_replace (holder : Older c th tcph) (hreplace : c.replaceHead) (hne : p ≠ a) :
    filterFrom c p s false (some a) pp = (removeFrom c p s none s.chain.head).bind fun s =>
      filterFrom c p (s.relink p a pp) true (some a) (some p) := by
  rw [filterFrom.eq_def]
  simp only [ha, hp, bind_eq_bind, bind_some]
  rw [if_pos holder, if_pos (by simp [hreplace, hne])]

theorem filterFrom_drop (holder : Older c th tcph) (hdone : c.replaceHead → p = a ∨ done = true)
    (hsecond : done = true ∨ p ≠ a) : filterFrom c p s done (some a) pp =
      (s.removeAfter (some a) pp).bind fun q =>
        filterFrom c p (s.drop a q) done (s.chain.next a) pp := by
  have hfirst : ¬(c.replaceHead ∧ p ≠ a ∧ done = false) := by
    rintro ⟨hreplace, hne, hfalse⟩
    rcases hdone hreplace with heq | htrue
    · exact hne heq
    · rw [hfalse] at htrue
      cases htrue
  rw [filterFrom.eq_def]
  simp only [ha, hp, bind_eq_bind, bind_some]
  rw [if_pos holder, if_neg hfirst, if_pos hsecond]

theorem filterFrom_skip (hskip : Older c th tcph → a = p ∧ done = false) :
    filterFrom c p s done (some a) pp = filterFrom c p s done (s.chain.next a) (some a) := by
  rw [filterFrom.eq_def]
  simp only [ha, hp, bind_eq_bind, bind_some]
  by_cases holder : Older c th tcph
  · obtain ⟨rfl, rfl⟩ := hskip holder
    rw [if_pos holder, if_neg (by simp), if_neg (by simp)]
  · rw [if_neg holder]

end Loop

theorem filterFrom_none (p : ℕ) (s : SemanticPacketQueue) :
    filterFrom c p s done none pp = some s := by
  rw [filterFrom.eq_def]

theorem filterFrom_freed {a : ℕ} (ha : s.packets a = none) :
    filterFrom c p s done (some a) pp = none := by
  rw [filterFrom.eq_def]
  simp only [ha, bind_eq_bind, bind_none]

/-- The loop of `filterAcks` goes on past packets that are not older, or the new one itself. -/
theorem Rep.filterFrom_append (done : Bool) (pp : Option ℕ) (h : s.Rep (m ++ (l ++ r)))
    (hpkt : s.packets pkt.addr = some pkt.hdr)
    (hl : ∀ x ∈ l, Older c x.hdr pkt.hdr → x.addr = pkt.addr ∧ done = false) :
    filterFrom c pkt.addr s done ((l ++ r).head?.map Packet.addr) pp =
      filterFrom c pkt.addr s done (r.head?.map Packet.addr) ((l.getLast?.map Packet.addr).or pp) := by
  induction l generalizing m pp with
  | nil => simp
  | cons x l ih =>
    rw [forall_mem_cons] at hl
    have hx : s.packets x.addr = some x.hdr := h.packets x (by simp)
    have hrest : s.Rep ((m ++ [x]) ++ (l ++ r)) := by simpa using h
    have hnext : s.chain.next x.addr = (l ++ r).head?.map Packet.addr := h.next
    rw [cons_append, head?_cons, map_some,
      filterFrom_skip hx hpkt hl.1, hnext, ih _ hrest hl.2, getLast?_cons]
    cases l.getLast? <;> rfl

theorem Tallied.drop (h : s.Tallied (l₁ ++ x :: l₂)) (hack : x.hdr.isAck) (k : TailQueue ℕ) :
    (s.drop x.addr { s.toPacketQueue with
      chain := k, len := s.len - 1, bytes := s.bytes - x.hdr.size }).Tallied (l₁ ++ l₂) := by
  obtain ⟨hlen, hbytes, hacks, hdata⟩ := h
  rw [countP_append, countP_cons_of_pos (p := fun x : Packet => x.hdr.isAck) hack] at hacks
  rw [countP_append, countP_cons_of_neg (by simp [hack])] at hdata
  simp only [length_append, length_cons] at hlen
  simp only [map_append, map_cons, sum_append, sum_cons] at hbytes
  refine ⟨?_, ?_, ?_, ?_⟩
  · rw [length_append]
    simp only [SemanticPacketQueue.drop]
    omega
  · rw [map_append, sum_append]
    simp only [SemanticPacketQueue.drop]
    omega
  · rw [countP_append]
    simp only [SemanticPacketQueue.drop]
    omega
  · rw [countP_append]
    exact hdata

theorem Rep.filterFrom_cons (h : s.Rep (l₁ ++ x :: l₂)) (hpkt : s.packets pkt.addr = some pkt.hdr)
    (holder : Older c x.hdr pkt.hdr) (hne : pkt.addr ≠ x.addr) (hdone : c.replaceHead → done = true)
    (hpp : l₁ ≠ [] → pp = l₁.getLast?.map Packet.addr) :
    ∃ q, filterFrom c pkt.addr s done (some x.addr) pp =
        filterFrom c pkt.addr (s.drop x.addr q) done (l₂.head?.map Packet.addr) pp ∧
      (s.drop x.addr q).Rep (l₁ ++ l₂) ∧ (s.drop x.addr q).packets pkt.addr = some pkt.hdr ∧
      (s.Tallied (l₁ ++ x :: l₂) → (s.drop x.addr q).Tallied (l₁ ++ l₂)) := by
  obtain ⟨k, hremove, hk⟩ := h.removeAfter hpp
  have hx : s.packets x.addr = some x.hdr := h.packets x (by simp)
  refine ⟨{ s.toPacketQueue with chain := k, len := s.len - 1, bytes := s.bytes - x.hdr.size },
    ?_, ⟨hk, fun y hy => ?_⟩, ?_, fun htallied => ?_⟩
  · rw [filterFrom_drop hx hpkt holder (fun hreplace => Or.inr (hdone hreplace)) (Or.inr hne),
      hremove, bind_some, h.next]
  · have hyx : y.addr ≠ x.addr := h.addr_ne hy
    refine (update_of_ne hyx _ _).trans (h.packets y ?_)
    rw [mem_append] at hy ⊢
    exact hy.imp_right (mem_cons_of_mem x)
  · exact (update_of_ne hne _ _).trans hpkt
  · exact htallied.drop holder.2.1 k

theorem Rep.filterFrom_filter (done : Bool) (pp : Option ℕ) (h : s.Rep (l₁ ++ l₂))
    (hpkt : s.packets pkt.addr = some pkt.hdr)
    (hl : ∀ x ∈ l₂, Older c x.hdr pkt.hdr → pkt.addr ≠ x.addr)
    (hdone : c.replaceHead → done = true) (hpp : l₁ ≠ [] → pp = l₁.getLast?.map Packet.addr) :
    ∃ s', filterFrom c pkt.addr s done (l₂.head?.map Packet.addr) pp = some s' ∧
      s'.Rep (l₁ ++ l₂.filter fun x => ¬Older c x.hdr pkt.hdr) ∧
      s'.markedCount = s.markedCount ∧ s'.unmarkedCount = s.unmarkedCount ∧
      (s.Tallied (l₁ ++ l₂) → s'.Tallied (l₁ ++ l₂.filter fun x => ¬Older c x.hdr pkt.hdr)) := by
  induction l₂ generalizing s l₁ pp with
  | nil => exact ⟨s, filterFrom_none _ s, h, rfl, rfl, id⟩
  | cons x l₂ ih =>
    rw [forall_mem_cons] at hl
    by_cases holder : Older c x.hdr pkt.hdr
    · obtain ⟨q, hstep, hrep, hpkt', htallied⟩ :=
        h.filterFrom_cons hpkt holder (hl.1 holder) hdone hpp
      obtain ⟨s', hs', hrep', hmarked, hunmarked, htallied'⟩ := ih pp hrep hpkt' hl.2 hpp
      rw [filter_cons_of_neg (by simpa using holder)]
      exact ⟨s', hstep.trans hs', hrep', hmarked, hunmarked, htallied' ∘ htallied⟩
    · have hrep : s.Rep ((l₁ ++ [x]) ++ l₂) := by simpa using h
      have hstep := Rep.filterFrom_append (c := c) (l := [x]) (r := l₂) done pp h hpkt
        (by simp [holder])
      obtain ⟨s', hs', hrep', hmarked, hunmarked, htallied⟩ := ih (some x.addr) hrep hpkt hl.2
        (by simp)
      rw [filter_cons_of_pos (by simpa using holder)]
      simp only [append_assoc, singleton_append] at hrep' htallied
      exact ⟨s', hstep.trans hs', hrep', hmarked, hunmarked, htallied⟩

theorem Older.refl (hack : pkt.hdr.isAck) (hreplace : c.replaceHead) :
    Older c pkt.hdr pkt.hdr := ⟨⟨rfl, rfl, rfl, rfl⟩, hack, Or.inr ⟨hreplace, rfl⟩⟩

theorem filtered_of_keep (hreplace : ¬c.replaceHead) :
    filtered c pkt l = (l.filter fun x => ¬Older c x.hdr pkt.hdr) ++ [pkt] :=
  if_neg fun h => hreplace h.1

theorem filtered_of_none (hl : ∀ x ∈ l, ¬Older c x.hdr pkt.hdr) : filtered c pkt l = l ++ [pkt] := by
  have hnone : ¬(c.replaceHead ∧ ∃ x ∈ l, Older c x.hdr pkt.hdr) := fun ⟨_, x, hx, h⟩ => hl x hx h
  rw [filtered, if_neg hnone, filter_eq_self.2 fun x hx => decide_eq_true (hl x hx)]

theorem filtered_of_first (l₂ : List Packet) (hreplace : c.replaceHead) (hl : ∀ y ∈ l₁, ¬Older c y.hdr pkt.hdr)
    (hx : Older c x.hdr pkt.hdr) : filtered c pkt (l₁ ++ x :: l₂) =
      l₁ ++ pkt :: (x :: l₂).filter fun x => ¬Older c x.hdr pkt.hdr := by
  have hyoung : ∀ y ∈ l₁, decide (¬Older c y.hdr pkt.hdr) = true := fun y hy => decide_eq_true (hl y hy)
  rw [filtered, if_pos ⟨hreplace, x, by simp, hx⟩, takeWhile_append_of_pos hyoung, dropWhile_append_of_pos hyoung,
    takeWhile_cons_of_neg (by simpa using hx), dropWhile_cons_of_neg (by simpa using hx),
    append_nil]

theorem Rep.filterAcks_keep (h : s.Rep (l ++ [pkt])) (hreplace : ¬c.replaceHead) :
    ∃ s', s.filterAcks c pkt.addr = some s' ∧ s'.Rep (filtered c pkt l) ∧
      s'.markedCount = s.markedCount ∧ s'.unmarkedCount = s.unmarkedCount ∧
      (s.Tallied (l ++ [pkt]) → s'.Tallied (filtered c pkt l)) := by
  have hpkt : s.packets pkt.addr = some pkt.hdr := h.packets pkt (by simp)
  have hself : ¬Older c pkt.hdr pkt.hdr := by
    rintro ⟨-, -, hlt | ⟨htrue, -⟩⟩
    · exact Int.lt_irrefl _ hlt
    · exact hreplace htrue
  have hl : ∀ x ∈ l ++ [pkt], Older c x.hdr pkt.hdr → pkt.addr ≠ x.addr := by
    intro x hx holder
    rcases mem_append.1 hx with hmem | hmem
    · exact (h.addr_ne_last hmem).symm
    · rw [mem_singleton.1 hmem] at holder
      exact absurd holder hself
  have hrep : s.Rep ([] ++ (l ++ [pkt])) := h
  obtain ⟨s', hs', hrep', hrest⟩ := hrep.filterFrom_filter false s.chain.head hpkt hl
    (fun htrue => absurd htrue hreplace) (fun hnil => absurd rfl hnil)
  have hlist : ((l ++ [pkt]).filter fun x => ¬Older c x.hdr pkt.hdr) = filtered c pkt l := by
    rw [filtered_of_keep hreplace, filter_append, filter_cons_of_pos (by simpa using hself)]
    rfl
  rw [← h.head] at hs'
  simp only [nil_append, hlist] at hrep' hrest
  exact ⟨s', hs', hrep', hrest⟩

theorem Rep.filterAcks_none (h : s.Rep (l ++ [pkt])) (hl : ∀ x ∈ l, ¬Older c x.hdr pkt.hdr) :
    s.filterAcks c pkt.addr = some s := by
  have hpkt : s.packets pkt.addr = some pkt.hdr := h.packets pkt (by simp)
  have hrep : s.Rep ([] ++ ((l ++ [pkt]) ++ [])) := by simpa using h
  have hself : ∀ x ∈ l ++ [pkt], Older c x.hdr pkt.hdr → x.addr = pkt.addr ∧ false = false := by
    intro x hx holder
    rcases mem_append.1 hx with hmem | hmem
    · exact absurd holder (hl x hmem)
    · rw [mem_singleton.1 hmem]
      exact ⟨rfl, rfl⟩
  have hloop := hrep.filterFrom_append (c := c) false s.chain.head hpkt hself
  rw [append_nil, ← h.head] at hloop
  exact hloop.trans (filterFrom_none _ s)

theorem Rep.removeFrom_last (h : s.Rep (l ++ [pkt])) (hl : l ≠ []) :
    ∃ t, removeFrom c pkt.addr s none s.chain.head = some t ∧ t.Rep l ∧
      t.packets pkt.addr = some pkt.hdr ∧ t.markedCount = s.markedCount ∧
      t.unmarkedCount = s.unmarkedCount := by
  obtain ⟨w, z, rfl⟩ := (eq_nil_or_concat' l).resolve_left hl
  have hrep : s.Rep (w ++ z :: pkt :: []) := by simpa using h
  refine ⟨_, hrep.removeFrom_cut, ⟨?_, fun x hx => ?_⟩, h.packets pkt (by simp), rfl, rfl⟩
  · have hchain := hrep.chain
    simp only [map_append, map_cons, map_nil] at hchain ⊢
    exact hchain.unlink
  · exact h.packets x (mem_append_left _ hx)

/-- With `replace_head_` the new acknowledgement takes the place of an older one that is not the
head. -/
theorem Rep.filterAcks_replace (h : s.Rep ((l₁ ++ y :: x :: l₂) ++ [pkt])) (hreplace : c.replaceHead)
    (hyoung : ∀ z ∈ l₁ ++ [y], ¬Older c z.hdr pkt.hdr) (hx : Older c x.hdr pkt.hdr) :
    ∃ s', s.filterAcks c pkt.addr = some s' ∧ s'.Rep (filtered c pkt (l₁ ++ y :: x :: l₂)) ∧
      s'.markedCount = s.markedCount ∧ s'.unmarkedCount = s.unmarkedCount := by
  have hpkt : s.packets pkt.addr = some pkt.hdr := h.packets pkt (by simp)
  have hne : ∀ z ∈ l₁ ++ y :: x :: l₂, z.addr ≠ pkt.addr := fun z hz =>
    h.addr_ne_last hz
  have hxpkt : pkt.addr ≠ x.addr := (hne x (by simp)).symm
  -- up to the first older one
  have hrep : s.Rep ([] ++ ((l₁ ++ [y]) ++ (x :: l₂ ++ [pkt]))) := by simpa using h
  have hwalk := hrep.filterFrom_append (c := c) false s.chain.head hpkt
    fun z hz holder => absurd holder (hyoung z hz)
  rw [← nil_append (_ ++ _), ← hrep.head] at hwalk
  -- the new one changes its place
  obtain ⟨t, hremove, ht, htpkt, htmarked, htunmarked⟩ := h.removeFrom_last (c := c) (by simp)
  have hstep : filterFrom c pkt.addr s false (some x.addr) (some y.addr) =
      filterFrom c pkt.addr (t.relink pkt.addr x.addr (some y.addr)) true (some x.addr)
        (some pkt.addr) := by
    have hxhdr : s.packets x.addr = some x.hdr := h.packets x (by simp)
    rw [filterFrom_replace hxhdr hpkt hx hreplace hxpkt, hremove, bind_some]
  have hlink : (t.relink pkt.addr x.addr (some y.addr)).Rep ((l₁ ++ [y, pkt]) ++ x :: l₂) := by
    refine ⟨?_, fun z hz => ?_⟩
    · have hchain := ht.chain
      rw [map_append, map_cons, map_cons] at hchain
      have hnot : pkt.addr ∉ l₁.map Packet.addr ++ y.addr :: x.addr :: l₂.map Packet.addr := by
        intro hmem
        have hmem' : pkt.addr ∈ (l₁ ++ y :: x :: l₂).map Packet.addr := by simpa using hmem
        obtain ⟨z, hz, heq⟩ := mem_map.1 hmem'
        exact hne z hz heq
      have hlinked := hchain.link hnot
      have hlist : (l₁ ++ [y, pkt] ++ x :: l₂).map Packet.addr =
          l₁.map Packet.addr ++ y.addr :: pkt.addr :: x.addr :: l₂.map Packet.addr := by simp
      rw [hlist]
      exact hlinked
    · by_cases hzpkt : z = pkt
      · rw [hzpkt]
        exact htpkt
      · refine ht.packets z ?_
        simp only [mem_append, mem_cons, not_mem_nil, or_false] at hz ⊢
        tauto
  obtain ⟨s', hs', hrep', hmarked, hunmarked, -⟩ := hlink.filterFrom_filter (c := c) true
    (some pkt.addr) htpkt (fun z hz _ => (hne z (by simp [mem_cons.1 hz])).symm)
    (fun _ => rfl) (by simp)
  refine ⟨s', ?_, ?_, hmarked.trans htmarked, hunmarked.trans htunmarked⟩
  · rw [filterAcks, hwalk]
    simpa using hstep.trans hs'
  · have hfirst := filtered_of_first l₂ hreplace hyoung hx
    simp only [append_assoc, singleton_append] at hfirst hrep'
    rw [hfirst]
    exact hrep'

/-- With `replace_head_` and an older acknowledgement at the head, the loop comes to packets that
it has freed. -/
theorem Rep.filterAcks_head (h : s.Rep (x :: l ++ [pkt])) (hack : pkt.hdr.isAck)
    (hreplace : c.replaceHead) (hx : Older c x.hdr pkt.hdr) : s.filterAcks c pkt.addr = none := by
  have hpkt : s.packets pkt.addr = some pkt.hdr := h.packets pkt (by simp)
  have hxhdr : s.packets x.addr = some x.hdr := h.packets x (by simp)
  have hne : pkt.addr ≠ x.addr := (h.addr_ne_last (by simp)).symm
  have hhead : s.chain.head = some x.addr := h.head
  obtain ⟨t, hremove, ht, htpkt, -⟩ := h.removeFrom_last (c := c) (by simp)
  have htx : t.packets x.addr = some x.hdr := ht.packets x (by simp)
  -- the new one is linked to the head and the head to it
  set u := t.relink pkt.addr x.addr (some x.addr)
  have hux : u.chain.next x.addr = some pkt.addr := update_self ..
  have hupkt : u.chain.next pkt.addr = some x.addr := by
    refine (update_of_ne hne _ _).trans ?_
    exact update_self ..
  have huhead : u.chain.head = some x.addr := ht.head
  have huxhdr : u.packets x.addr = some x.hdr := htx
  have hupkthdr : u.packets pkt.addr = some pkt.hdr := htpkt
  have hself : Older c pkt.hdr pkt.hdr := Older.refl hack hreplace
  have hstep₁ : filterFrom c pkt.addr s false (some x.addr) (some x.addr) =
      filterFrom c pkt.addr u true (some x.addr) (some pkt.addr) := by
    rw [filterFrom_replace hxhdr hpkt hx hreplace hne, hremove, bind_some]
  -- the head is freed, and then the new one
  obtain ⟨q, hq, hqpackets, hqnext⟩ := exists_removeAfter huxhdr pkt.addr
  have hstep₂ : filterFrom c pkt.addr u true (some x.addr) (some pkt.addr) =
      filterFrom c pkt.addr (u.drop x.addr q) true (some pkt.addr) (some pkt.addr) := by
    rw [filterFrom_drop huxhdr hupkthdr hx (fun _ => Or.inr rfl) (Or.inl rfl), hq,
      bind_some, hux]
  have hvpkt : (u.drop x.addr q).packets pkt.addr = some pkt.hdr :=
    (update_of_ne hne _ _).trans (hqpackets ▸ hupkthdr)
  have hvx : (u.drop x.addr q).packets x.addr = none := update_self ..
  have hvnext : (u.drop x.addr q).chain.next pkt.addr = some x.addr :=
    (congrFun (hqnext huhead) pkt.addr).trans hupkt
  obtain ⟨q', hq', hqpackets', -⟩ := exists_removeAfter hvpkt pkt.addr
  have hstep₃ : filterFrom c pkt.addr (u.drop x.addr q) true (some pkt.addr) (some pkt.addr) =
      filterFrom c pkt.addr ((u.drop x.addr q).drop pkt.addr q') true (some x.addr)
        (some pkt.addr) := by
    rw [filterFrom_drop hvpkt hvpkt hself (fun _ => Or.inr rfl) (Or.inl rfl), hq',
      bind_some, hvnext]
  have hfreed : ((u.drop x.addr q).drop pkt.addr q').packets x.addr = none :=
    (update_of_ne hne.symm _ _).trans (hqpackets' ▸ hvx)
  rw [filterAcks, hhead, hstep₁, hstep₂, hstep₃, filterFrom_freed hfreed]

theorem exists_first (hl : ∃ x ∈ l, Older c x.hdr pkt.hdr) :
    ∃ l₁ x l₂, l = l₁ ++ x :: l₂ ∧ (∀ y ∈ l₁, ¬Older c y.hdr pkt.hdr) ∧ Older c x.hdr pkt.hdr := by
  obtain ⟨x, hx, holder⟩ := hl
  have hfind : (l.find? fun x => decide (Older c x.hdr pkt.hdr)).isSome := by
    rw [find?_isSome]
    exact ⟨x, hx, decide_eq_true holder⟩
  obtain ⟨y, hy⟩ := isSome_iff_exists.1 hfind
  obtain ⟨hyolder, l₁, l₂, heq, hl₁⟩ := find?_eq_some_iff_append.1 hy
  exact ⟨l₁, y, l₂, heq, fun z hz => by simpa using hl₁ z hz, of_decide_eq_true hyolder⟩

theorem Rep.exists_filterAcks (h : s.Rep (l ++ [pkt]))
    (hhead : ¬(c.replaceHead ∧ ∃ x ∈ l.head?, Older c x.hdr pkt.hdr)) :
    ∃ s', s.filterAcks c pkt.addr = some s' ∧ s'.Rep (filtered c pkt l) ∧
      s'.markedCount = s.markedCount ∧ s'.unmarkedCount = s.unmarkedCount ∧
      (¬c.replaceHead → s.Tallied (l ++ [pkt]) → s'.Tallied (filtered c pkt l)) := by
  by_cases hreplace : c.replaceHead
  · by_cases hl : ∃ x ∈ l, Older c x.hdr pkt.hdr
    · obtain ⟨l₁, x, l₂, rfl, hyoung, hx⟩ := exists_first hl
      rcases eq_nil_or_concat' l₁ with rfl | ⟨m, y, rfl⟩
      · exact absurd ⟨hreplace, x, rfl, hx⟩ hhead
      · have hsplit : (m ++ [y]) ++ x :: l₂ = m ++ y :: x :: l₂ := by simp
        rw [hsplit] at h ⊢
        obtain ⟨s', hs', hrep, hmarked, hunmarked⟩ := h.filterAcks_replace hreplace hyoung hx
        exact ⟨s', hs', hrep, hmarked, hunmarked, fun hnot => absurd hreplace hnot⟩
    · rw [not_exists] at hl
      have hyoung : ∀ x ∈ l, ¬Older c x.hdr pkt.hdr := fun x hx holder => hl x ⟨hx, holder⟩
      rw [filtered_of_none hyoung]
      exact ⟨s, h.filterAcks_none hyoung, h, rfl, rfl, fun _ => id⟩
  · obtain ⟨s', hs', hrep, hmarked, hunmarked, htallied⟩ := h.filterAcks_keep hreplace
    exact ⟨s', hs', hrep, hmarked, hunmarked, fun _ => htallied⟩

theorem length_filtered_le (hl : ∃ x ∈ l, Older c x.hdr pkt.hdr) :
    (filtered c pkt l).length ≤ l.length := by
  by_cases hreplace : c.replaceHead
  · obtain ⟨l₁, x, l₂, rfl, hyoung, hx⟩ := exists_first hl
    have hle := length_filter_le (fun x : Packet => decide (¬Older c x.hdr pkt.hdr)) l₂
    rw [filtered_of_first _ hreplace hyoung hx, filter_cons_of_neg (by simpa using hx)]
    simp only [length_append, length_cons]
    omega
  · obtain ⟨x, hx, holder⟩ := hl
    have hlt : (l.filter fun x : Packet => decide (¬Older c x.hdr pkt.hdr)).length < l.length := by
      rw [length_filter_lt_length_iff_exists]
      exact ⟨x, hx, by simpa using holder⟩
    rw [filtered_of_keep hreplace, length_append]
    exact hlt

end Ns2.SemanticPacketQueue
