import Ns2.Queue.AckFilter

/-! Runs of a `SemanticPacketQueue`: the list and the counters stay right as long as no
acknowledgement is filtered out and `remove` is not called for the head. -/

namespace Ns2.SemanticPacketQueue

open List Option Function

variable {c : Config} {s s' : SemanticPacketQueue} {l l₁ l₂ m r : List Packet} {x y pkt : Packet}
  {pp : Option ℕ} {p : ℕ} {h : Header} {op : Op}

/-- A packet comes with its headers. -/
def arrive (x : Packet) (s : SemanticPacketQueue) : SemanticPacketQueue :=
  { s with packets := Function.update s.packets x.addr (some x.hdr) }

def act (c : Config) (s : SemanticPacketQueue) : Op → Option SemanticPacketQueue
  | .enque x => ((s.arrive x).enque c x.addr).map Prod.fst
  | .deque => (s.deque c).map Prod.fst
  | .remove p => s.remove c p

/-- What the list is to be after an operation. -/
def after (c : Config) (l : List Packet) : Op → List Packet
  | .enque x => if c.filteracks ∧ x.hdr.isAck then filtered c x l else l ++ [x]
  | .deque =>
    if c.acksfirst ∧ ∃ x ∈ l, x.hdr.isAck then l.eraseP fun x => x.hdr.isAck else l.tail
  | .remove p => l.eraseP fun x => x.addr = p

/-- No packet is in the queue twice, and one that is removed is in it. -/
def Valid (l : List Packet) : Op → Prop
  | .enque x => x.addr ∉ l.map Packet.addr
  | .deque => True
  | .remove p => p ∈ l.map Packet.addr

instance (l : List Packet) : (op : Op) → Decidable (Valid l op)
  | .enque x => inferInstanceAs (Decidable (x.addr ∉ l.map Packet.addr))
  | .deque => inferInstanceAs (Decidable True)
  | .remove p => inferInstanceAs (Decidable (p ∈ l.map Packet.addr))

/-- The queue with what its list is to be. -/
def machine (c : Config) : Machine (SemanticPacketQueue × List Packet) Op Unit where
  step r op :=
    if Valid r.2 op then (act c r.1 op).map fun s => ((s, after c r.2 op), ()) else none

/-- The operation ends with the right list and counters. -/
def Right (c : Config) (r : SemanticPacketQueue × List Packet) (op : Op) : Prop :=
  Valid r.2 op → ∃ s', act c r.1 op = some s' ∧ s'.Rep (after c r.2 op) ∧ s'.Counted (after c r.2 op)

/-- Nothing is filtered out, and the head is not removed. -/
def Spares (c : Config) (l : List Packet) : Op → Prop
  | .enque x => c.filteracks → x.hdr.isAck → ∀ y ∈ l, ¬Older c y.hdr x.hdr
  | .deque => True
  | .remove p => l.head?.map Packet.addr ≠ some p

def Meets (c : Config) (r : SemanticPacketQueue × List Packet) (op : Op) : Prop :=
  Valid r.2 op → Spares c r.2 op

@[simp] theorem count_toPacketQueue (h : Header) (s : SemanticPacketQueue) :
    (count h s).toPacketQueue = s.toPacketQueue := by
  unfold count
  split_ifs <;> rfl

@[simp] theorem uncount_toPacketQueue (h : Header) (s : SemanticPacketQueue) :
    (uncount h s).toPacketQueue = s.toPacketQueue := by
  unfold uncount
  split_ifs <;> rfl

theorem uncount_acks (h : Header) (s : SemanticPacketQueue) :
    (uncount h s).ackCount + (uncount h s).dataCount = s.ackCount + s.dataCount - 1 := by
  unfold uncount
  split_ifs <;> dsimp only <;> omega

theorem Counted.marked (h : s.Counted l) : s.markedCount + s.unmarkedCount = l.length := by
  have hlength := length_eq_countP_add_countP (fun x : Packet => x.hdr.fs) (l := l)
  have hmarked := h.markedCount
  have hunmarked := h.unmarkedCount
  simp only [decide_not, Bool.decide_eq_true] at hlength
  omega

theorem Counted.acks (h : s.Counted l) : s.ackCount + s.dataCount = l.length := by
  have hlength := length_eq_countP_add_countP (fun x : Packet => x.hdr.isAck) (l := l)
  have hacks := h.ackCount
  have hdata := h.dataCount
  simp only [decide_not, Bool.decide_eq_true] at hlength
  omega

/-- The queue when `pkt` has been counted and has joined at the end. -/
def joined (pkt : Packet) (s : SemanticPacketQueue) : SemanticPacketQueue :=
  count pkt.hdr { s with
    chain := s.chain.push pkt.addr, len := s.len + 1, bytes := s.bytes + pkt.hdr.size }

theorem Rep.joined (h : s.Rep l) (hpkt : s.packets pkt.addr = some pkt.hdr)
    (hfresh : pkt.addr ∉ l.map Packet.addr) : (s.joined pkt).Rep (l ++ [pkt]) := by
  refine ⟨?_, fun x hx => ?_⟩
  · rw [SemanticPacketQueue.joined, count_toPacketQueue, map_append]
    exact h.chain.push hfresh
  · rw [SemanticPacketQueue.joined, count_toPacketQueue]
    rcases mem_append.1 hx with hmem | hmem
    · exact h.packets x hmem
    · rw [mem_singleton.1 hmem]
      exact hpkt

theorem Tallied.joined (h : s.Tallied l) (pkt : Packet) : (s.joined pkt).Tallied (l ++ [pkt]) := by
  obtain ⟨hlen, hbytes, hacks, hdata⟩ := h
  refine ⟨?_, ?_, ?_, ?_⟩
  · simp [SemanticPacketQueue.joined, hlen]
  · simp [SemanticPacketQueue.joined, hbytes]
  · unfold SemanticPacketQueue.joined count
    split_ifs with hack hfs hfs <;> simp [hacks, hack]
  · unfold SemanticPacketQueue.joined count
    split_ifs with hack hfs hfs <;> simp [hdata, hack]

theorem Counted.joined (h : s.Counted l) (pkt : Packet) : (s.joined pkt).Counted (l ++ [pkt]) := by
  obtain ⟨htallied, hmarked, hunmarked⟩ := h
  refine ⟨htallied.joined pkt, ?_, ?_⟩
  · unfold SemanticPacketQueue.joined count
    split_ifs with hack hfs hfs <;> simp [hmarked, hfs]
  · unfold SemanticPacketQueue.joined count
    split_ifs with hack hfs hfs <;> simp [hunmarked, hfs]

theorem Counted.leave (h : s.Counted (l₁ ++ x :: l₂)) (k : TailQueue ℕ) :
    (uncount x.hdr { s with
      chain := k, len := s.len - 1, bytes := s.bytes - x.hdr.size }).Counted (l₁ ++ l₂) := by
  obtain ⟨⟨hlen, hbytes, hacks, hdata⟩, hmarked, hunmarked⟩ := h
  simp only [length_append, length_cons, map_append, map_cons, sum_append,
    sum_cons, countP_append, countP_cons] at hlen hbytes hacks hdata hmarked hunmarked
  refine ⟨⟨?_, ?_, ?_, ?_⟩, ?_, ?_⟩
  · rw [uncount_toPacketQueue, length_append]
    dsimp only
    omega
  · rw [uncount_toPacketQueue, map_append, sum_append]
    dsimp only
    omega
  · rw [countP_append]
    unfold uncount
    split_ifs with hack hfs hfs <;> simp [hack] at hacks ⊢ <;> omega
  · rw [countP_append]
    unfold uncount
    split_ifs with hack hfs hfs <;> simp [hack] at hdata ⊢ <;> omega
  · rw [countP_append]
    unfold uncount
    split_ifs with hack hfs hfs <;> simp [hfs] at hmarked ⊢ <;> omega
  · rw [countP_append]
    unfold uncount
    split_ifs with hack hfs hfs <;> simp [hfs] at hunmarked ⊢ <;> omega

theorem Rep.arrive (h : s.Rep l) (hfresh : x.addr ∉ l.map Packet.addr) : (s.arrive x).Rep l := by
  refine ⟨h.chain, fun y hy => ?_⟩
  have hyx : y.addr ≠ x.addr := fun heq => hfresh (heq ▸ mem_map_of_mem hy)
  exact (update_of_ne hyx _ _).trans (h.packets y hy)

theorem Tallied.arrive (h : s.Tallied l) : (s.arrive x).Tallied l :=
  ⟨h.len, h.bytes, h.ackCount, h.dataCount⟩

theorem Counted.arrive (h : s.Counted l) : (s.arrive x).Counted l :=
  ⟨h.toTallied.arrive, h.markedCount, h.unmarkedCount⟩

theorem act_enque : act c s (.enque x) =
    if c.filteracks ∧ x.hdr.isAck then ((s.arrive x).joined x).filterAcks c x.addr
    else some ((s.arrive x).joined x) := by
  have hpkt : (s.arrive x).packets x.addr = some x.hdr := update_self ..
  simp only [act, SemanticPacketQueue.enque, PacketQueue.enque, hpkt, Option.bind_some,
    map_some]
  split_ifs
  · rw [Option.map_map]
    exact Option.map_id' ..
  · rfl

/-- The new acknowledgement gets its place unless it is to replace the head; when it does not
replace another one, the numbers of packets and bytes stay right. -/
theorem Rep.enque_iff (h : s.Rep l) (hfresh : x.addr ∉ l.map Packet.addr)
    (hfilter : c.filteracks) (hack : x.hdr.isAck) :
    (∃ s', act c s (.enque x) = some s' ∧ s'.Rep (filtered c x l) ∧
      (¬c.replaceHead → s.Tallied l → s'.Tallied (filtered c x l))) ↔
      ¬(c.replaceHead ∧ ∃ y ∈ l.head?, Older c y.hdr x.hdr) := by
  have hpkt : (s.arrive x).packets x.addr = some x.hdr := update_self ..
  have hjoined := (h.arrive hfresh).joined hpkt hfresh
  rw [act_enque, if_pos ⟨hfilter, hack⟩]
  constructor
  · rintro ⟨s', hs', -⟩ ⟨hreplace, y, hy, holder⟩
    obtain ⟨t, rfl⟩ := head?_eq_some_iff.1 hy
    rw [hjoined.filterAcks_head hack hreplace holder] at hs'
    cases hs'
  · intro hhead
    obtain ⟨s', hs', hrep, -, -, htallied⟩ := hjoined.exists_filterAcks hhead
    exact ⟨s', hs', hrep, fun hreplace h => htallied hreplace (h.arrive.joined x)⟩

/-- With exact counters an arriving packet leaves them exact when nothing is filtered out. -/
theorem right_enque_iff (h : s.Rep l) (hcounted : s.Counted l) :
    Right c (s, l) (.enque x) ↔ Meets c (s, l) (.enque x) := by
  refine imp_congr_right fun hfresh : x.addr ∉ l.map Packet.addr => ?_
  have hpkt : (s.arrive x).packets x.addr = some x.hdr := update_self ..
  have hjoined := (h.arrive hfresh).joined hpkt hfresh
  have hcounted' := (hcounted.arrive (x := x)).joined x
  by_cases hfilters : c.filteracks ∧ x.hdr.isAck
  · constructor
    · rintro ⟨s', hs', -, hright⟩ - - y hy holder
      have hafter : after c l (.enque x) = filtered c x l := if_pos hfilters
      dsimp only at hs' hright
      rw [hafter] at hright
      rw [act_enque, if_pos hfilters] at hs'
      have hhead : ¬(c.replaceHead ∧ ∃ y ∈ l.head?, Older c y.hdr x.hdr) := by
        rintro ⟨hreplace, z, hz, hzolder⟩
        obtain ⟨t, rfl⟩ := head?_eq_some_iff.1 hz
        rw [hjoined.filterAcks_head hfilters.2 hreplace hzolder] at hs'
        cases hs'
      obtain ⟨t, ht, -, hmarked, hunmarked, -⟩ := hjoined.exists_filterAcks hhead
      obtain rfl : t = s' := Option.some.inj (ht.symm.trans hs')
      have hle := length_filtered_le (l := l) ⟨y, hy, holder⟩
      have hsum := hright.marked
      have hsum' := hcounted'.marked
      rw [length_append, length_singleton] at hsum'
      omega
    · intro hyoung
      have hyoung' : ∀ y ∈ l, ¬Older c y.hdr x.hdr := hyoung hfilters.1 hfilters.2
      have hafter : after c l (.enque x) = l ++ [x] :=
        (if_pos hfilters).trans (filtered_of_none hyoung')
      refine ⟨(s.arrive x).joined x, ?_, ?_, ?_⟩
      · rw [act_enque, if_pos hfilters, hjoined.filterAcks_none hyoung']
      · rw [hafter]
        exact hjoined
      · rw [hafter]
        exact hcounted'
  · have hafter : after c l (.enque x) = l ++ [x] := if_neg hfilters
    refine iff_of_true ⟨(s.arrive x).joined x, ?_, ?_, ?_⟩ fun hf ha => absurd ⟨hf, ha⟩ hfilters
    · rw [act_enque, if_neg hfilters]
    · rw [hafter]
      exact hjoined
    · rw [hafter]
      exact hcounted'

theorem Rep.firstAck_append (h : s.Rep (m ++ (l ++ r))) (hl : ∀ x ∈ l, ¬x.hdr.isAck) :
    firstAck s ((l ++ r).head?.map Packet.addr) pp =
      firstAck s (r.head?.map Packet.addr)
        ((l.getLast?.map Packet.addr).or pp) := by
  induction l generalizing m pp with
  | nil => simp
  | cons x l ih =>
    rw [forall_mem_cons] at hl
    have hx : s.packets x.addr = some x.hdr := h.packets x (by simp)
    have hrest : s.Rep ((m ++ [x]) ++ (l ++ r)) := by simpa using h
    have hnext : s.chain.next x.addr = (l ++ r).head?.map Packet.addr := h.next
    have hstep : firstAck s (some x.addr) pp =
        firstAck s (s.chain.next x.addr) (some x.addr) := by
      rw [firstAck.eq_def]
      simp only [hx, bind_eq_bind, Option.bind_some]
      exact if_neg hl.1
    rw [cons_append, head?_cons, map_some, hstep, hnext, ih hrest hl.2,
      getLast?_cons]
    cases l.getLast? <;> rfl

theorem Rep.firstAck (h : s.Rep (l₁ ++ x :: l₂)) (hl : ∀ y ∈ l₁, ¬y.hdr.isAck)
    (hack : x.hdr.isAck) : firstAck s s.chain.head none =
      some (some x.addr, l₁.getLast?.map Packet.addr) := by
  have hx : s.packets x.addr = some x.hdr := h.packets x (by simp)
  have hrep : s.Rep ([] ++ (l₁ ++ x :: l₂)) := h
  rw [h.head, hrep.firstAck_append hl, head?_cons, map_some, firstAck.eq_def]
  simp only [hx, bind_eq_bind, Option.bind_some, or_none]
  exact if_pos hack

theorem Rep.uncount (h : s.Rep (l₁ ++ x :: l₂)) (hcounted : s.Counted (l₁ ++ x :: l₂))
    {k : TailQueue ℕ} (hk : k.Rep ((l₁ ++ l₂).map Packet.addr)) :
    ∃ s', (s.packets x.addr).map (fun h => SemanticPacketQueue.uncount h { s with
        chain := k, len := s.len - 1, bytes := s.bytes - x.hdr.size }) = some s' ∧
      s'.Rep (l₁ ++ l₂) ∧ s'.Counted (l₁ ++ l₂) := by
  have hx : s.packets x.addr = some x.hdr := h.packets x (by simp)
  refine ⟨_, congrArg (Option.map _) hx, ⟨?_, fun y hy => ?_⟩, hcounted.leave k⟩
  · rw [uncount_toPacketQueue]
    exact hk
  · rw [uncount_toPacketQueue]
    refine h.packets y ?_
    rw [mem_append] at hy ⊢
    exact hy.imp_right (mem_cons_of_mem x)

theorem deque_of_take {q : PacketQueue}
    (htake : (if c.acksfirst then s.dequeAcksfirst else s.toPacketQueue.deque) = some (q, some p)) :
    (s.deque c).map Prod.fst =
      (q.packets p).map fun h => SemanticPacketQueue.uncount h { s with toPacketQueue := q } := by
  rw [SemanticPacketQueue.deque, htake, Option.bind_some, Option.map_map]
  rfl

theorem Rep.deque (h : s.Rep l) (hcounted : s.Counted l) :
    ∃ s', act c s .deque = some s' ∧ s'.Rep (after c l .deque) ∧ s'.Counted (after c l .deque) := by
  by_cases hfirst : c.acksfirst ∧ ∃ x ∈ l, x.hdr.isAck
  · obtain ⟨hacksfirst, hacks⟩ := hfirst
    have hfind : (l.find? fun x => x.hdr.isAck).isSome := by
      rw [find?_isSome]
      exact hacks
    obtain ⟨x, hx⟩ := isSome_iff_exists.1 hfind
    obtain ⟨hack, l₁, l₂, rfl, hl₁⟩ := find?_eq_some_iff_append.1 hx
    have hdata : ∀ y ∈ l₁, ¬y.hdr.isAck := fun y hy => by simpa using hl₁ y hy
    obtain ⟨k, hremove, hk⟩ := h.removeAfter fun _ => Eq.refl (l₁.getLast?.map Packet.addr)
    have hpos : s.ackCount > 0 := by
      rw [hcounted.ackCount]
      exact Int.natCast_pos.2 (countP_pos_iff.2 hacks)
    have hafter : after c (l₁ ++ x :: l₂) .deque = l₁ ++ l₂ := by
      refine (if_pos ⟨hacksfirst, hacks⟩).trans ?_
      rw [eraseP_append_right _ hdata, eraseP_cons_of_pos (p := fun x : Packet => x.hdr.isAck) hack]
    obtain ⟨s', hs', hright⟩ := h.uncount hcounted hk
    rw [hafter]
    refine ⟨s', (deque_of_take ?_).trans hs', hright⟩
    rw [if_pos hacksfirst, dequeAcksfirst, if_pos hpos, h.firstAck hdata hack, Option.bind_some]
    exact congrArg (Option.map _) hremove
  · have hafter : after c l .deque = l.tail := if_neg hfirst
    have htake : (if c.acksfirst then s.dequeAcksfirst else s.toPacketQueue.deque) =
        s.toPacketQueue.deque := by
      split_ifs with hacksfirst
      · rw [dequeAcksfirst, if_neg]
        rw [hcounted.ackCount, countP_eq_zero.2 fun x hx hack => hfirst ⟨hacksfirst, x, hx, hack⟩]
        decide
      · rfl
    rw [hafter]
    cases l with
    | nil =>
      have hhead : s.chain.head = none := h.head
      refine ⟨s, ?_, h, hcounted⟩
      unfold act SemanticPacketQueue.deque
      rw [htake, PacketQueue.deque, hhead]
      rfl
    | cons x l =>
      have hx : s.packets x.addr = some x.hdr := h.packets x (by simp)
      have hhead : s.chain.head = some x.addr := h.head
      have hchain : s.chain.Rep (x.addr :: l.map Packet.addr) := h.chain
      have hrep : s.Rep ([] ++ x :: l) := h
      obtain ⟨s', hs', hright⟩ := hrep.uncount hcounted hchain.pop
      refine ⟨s', (deque_of_take (htake.trans ?_)).trans hs', hright⟩
      simp [PacketQueue.deque, hhead, hx]

theorem length_after_deque (c : Config) (x : Packet) (l : List Packet) :
    (after c (x :: l) .deque).length = l.length := by
  unfold after
  split_ifs with hfirst
  · obtain ⟨-, y, hy, hack⟩ := hfirst
    exact length_eraseP_of_mem (p := fun x : Packet => x.hdr.isAck) hy hack
  · rfl

theorem removeFrom_head : removeFrom c p s none (some p) = (s.deque c).map Prod.fst := by
  rw [removeFrom.eq_def]
  exact if_pos rfl

/-- With exact counters `remove` leaves them exact unless it is called for the head. -/
theorem right_remove_iff (h : s.Rep l) (hcounted : s.Counted l) :
    Right c (s, l) (.remove p) ↔ Meets c (s, l) (.remove p) := by
  refine imp_congr_right fun hvalid : p ∈ l.map Packet.addr => ?_
  obtain ⟨x, hx, rfl⟩ := mem_map.1 hvalid
  obtain ⟨l₁, l₂, rfl⟩ := append_of_mem hx
  have hne : ∀ y ∈ l₁, ¬decide (y.addr = x.addr) = true := fun y hy => by
    simpa using h.addr_ne (mem_append_left l₂ hy)
  have hafter : after c (l₁ ++ x :: l₂) (.remove x.addr) = l₁ ++ l₂ := by
    refine (eraseP_append_right _ hne).trans ?_
    rw [eraseP_cons_of_pos (by simp)]
  dsimp only
  rw [hafter]
  rcases eq_nil_or_concat' l₁ with rfl | ⟨m, y, rfl⟩
  · refine iff_of_false ?_ fun hhead => hhead rfl
    rintro ⟨s', hs', -, hright⟩
    obtain ⟨s₁, hs₁, -, hcounted₁⟩ := h.deque (c := c) hcounted
    have hhead : s.chain.head = some x.addr := h.head
    have hdeque : (s.deque c).map Prod.fst = some s₁ := hs₁
    change (removeFrom c x.addr s none s.chain.head).bind _ = some s' at hs'
    rw [hhead, removeFrom_head, hdeque, Option.bind_some] at hs'
    obtain ⟨hdr, -, rfl⟩ := map_eq_some_iff.1 hs'
    -- counted down twice
    have htwice := uncount_acks hdr s₁
    have hsum := hright.acks
    have hsum₁ := hcounted₁.acks
    rw [nil_append, length_after_deque] at hsum₁
    rw [nil_append] at hsum
    omega
  · have hsplit : (m ++ [y]) ++ x :: l₂ = m ++ y :: x :: l₂ := by simp
    have hrep : s.Rep (m ++ y :: x :: l₂) := hsplit ▸ h
    have hk : (s.chain.unlink x.addr y.addr).Rep ((m ++ [y] ++ l₂).map Packet.addr) := by
      have hchain := hrep.chain
      simp only [map_append, map_cons, append_assoc] at hchain ⊢
      exact hchain.unlink
    obtain ⟨s', hs', hright⟩ := h.uncount hcounted hk
    refine iff_of_true ⟨s', ?_, hright⟩ fun hhead => ?_
    · change (removeFrom c x.addr s none s.chain.head).bind _ = some s'
      rw [hrep.removeFrom_cut, Option.bind_some]
      exact hs'
    · rw [append_assoc, singleton_append] at hhead
      obtain ⟨z, hz, hzx⟩ := map_eq_some_iff.1 hhead
      have hmem : z ∈ m ++ [y] := by
        rw [← singleton_append (x := y), ← append_assoc,
          head?_append_of_ne_nil _ (by simp)] at hz
        exact mem_of_head? hz
      exact h.addr_ne (mem_append_left l₂ hmem) hzx

theorem right_iff (h : s.Rep l) (hcounted : s.Counted l) (op : Op) :
    Right c (s, l) op ↔ Meets c (s, l) op := by
  cases op with
  | enque x => exact right_enque_iff h hcounted
  | deque => exact iff_of_true (fun _ => h.deque hcounted) fun _ => trivial
  | remove p => exact right_remove_iff h hcounted

theorem rep_new : new.Rep [] := ⟨TailQueue.Rep.nil rfl rfl, fun _ hx => absurd hx not_mem_nil⟩

theorem runs_right_iff (c : Config) (ops : List Op) :
    (machine c).RunsWith (Right c) (new, []) ops ↔ (machine c).RunsWith (Meets c) (new, []) ops := by
  refine Machine.runsWith_congr (I := fun r => r.1.Rep r.2 ∧ r.1.Counted r.2)
    (fun r op h => right_iff h.1 h.2 op) (fun r op r' _ h hright hstep => ?_)
    ⟨rep_new, ⟨rfl, rfl, rfl, rfl⟩, rfl, rfl⟩ ops
  change (if Valid r.2 op then _ else none) = some _ at hstep
  by_cases hvalid : Valid r.2 op
  · obtain ⟨s', hs', hrep, hcounted⟩ := hright hvalid
    rw [if_pos hvalid, hs'] at hstep
    cases hstep
    exact ⟨hrep, hcounted⟩
  · rw [if_neg hvalid] at hstep
    cases hstep

/-- A new acknowledgement is filtered into any list as it should be unless it is to replace the
head; and all lists and counters of a run are right exactly when nothing is filtered out and the
head is not removed. -/
theorem enque_and_runs_right_iff (c : Config) :
    (∀ s l x, s.Rep l → x.addr ∉ l.map Packet.addr → c.filteracks → x.hdr.isAck →
      ((∃ s', act c s (.enque x) = some s' ∧ s'.Rep (filtered c x l) ∧
        (¬c.replaceHead → s.Tallied l → s'.Tallied (filtered c x l))) ↔
        ¬(c.replaceHead ∧ ∃ y ∈ l.head?, Older c y.hdr x.hdr))) ∧
    ∀ ops, (machine c).RunsWith (Right c) (new, []) ops ↔
      (machine c).RunsWith (Meets c) (new, []) ops :=
  ⟨fun _ _ _ h hfresh hfilter hack => h.enque_iff hfresh hfilter hack, runs_right_iff c⟩

/-- The acknowledgement of packet `n`. -/
def ackOf (n : ℕ) : Packet := ⟨n, ⟨true, 40, 1, 0, 2, 0, n, false⟩⟩

theorem spares_of_runs (h : (machine c).RunsWith (Right c) (new, []) [.enque x, op])
    (hx : after c [] (.enque x) = [x]) (hvalid : Valid [x] op) : Spares c [x] op := by
  have hempty : Valid [] (.enque x) := not_mem_nil
  obtain ⟨s', hs', hrep, hcounted⟩ := h.1 hempty
  have hstep : (machine c).step (new, []) (.enque x) = some ((s', [x]), ()) := by
    change (if Valid [] (.enque x) then (act c new (.enque x)).map fun s =>
      ((s, after c [] (.enque x)), ()) else none) = _
    rw [if_pos hempty, hs', hx]
    rfl
  dsimp only at hrep hcounted
  rw [hx] at hrep hcounted
  exact (right_iff hrep hcounted op).1 (h.2 _ _ hstep).1 hvalid

/-- A newer acknowledgement comes, without and with `replace_head_`; or the head is removed. -/
theorem not_runs_right_newer :
    ¬(machine ⟨false, true, false⟩).RunsWith (Right ⟨false, true, false⟩) (new, [])
        [.enque (ackOf 1), .enque (ackOf 2)] ∧
      ¬(machine ⟨false, true, true⟩).RunsWith (Right ⟨false, true, true⟩) (new, [])
        [.enque (ackOf 1), .enque (ackOf 2)] ∧
      ¬(machine ⟨false, true, false⟩).RunsWith (Right ⟨false, true, false⟩) (new, [])
        [.enque (ackOf 1), .remove 1] := by
  refine ⟨fun h => ?_, fun h => ?_, fun h => ?_⟩
  · have hspares := spares_of_runs h (by decide) (by decide)
    exact hspares rfl rfl (ackOf 1) (mem_singleton_self _) (by decide)
  · have hspares := spares_of_runs h (by decide) (by decide)
    exact hspares rfl rfl (ackOf 1) (mem_singleton_self _) (by decide)
  · have hspares := spares_of_runs h (by decide) (by decide)
    exact hspares rfl

end Ns2.SemanticPacketQueue
